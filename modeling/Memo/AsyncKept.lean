-- What the queue keeps of its operations in each state, with a journal or without: they are in the
-- order of their indices, and each carries what was asked for by the last of the calls it stands
-- for, in memory while it waits for the loop, and in its file.
import Memo.AsyncQueue

open stores runs

namespace memo.consensus

variable {A B D R S : Type}

/-! ## What an operation stands for -/

/-- The push whose block the operation carries. -/
def Op.newest (op : Op A B R S) : Nat := op.pushes.getLast?.getD 0

/-- What an operation keeps on its way through the queue. -/
def Op.tag (op : Op A B R S) : Int × A × List Nat := (op.index, op.address, op.pushes)

/-- The operation does what the newest of its pushes asked for. -/
def Carries (env : Blocks A B D R S) (pushed : List (Op A B R S)) (op : Op A B R S) : Prop :=
  ∃ p, pushed[op.newest]? = some p ∧ p.address = op.address ∧ p.mode = op.mode ∧
    p.remove_signature = op.remove_signature ∧ p.block.map env.data = op.block.map env.data

variable {env : Blocks A B D R S} {op o p cop : Op A B R S} {ops pushed : List (Op A B R S)} {a : A}
  {t : Table Int (File A B R S)}

theorem tag_index (h : o.tag = op.tag) : o.index = op.index := congrArg Prod.fst h

theorem tag_address (h : o.tag = op.tag) : o.address = op.address := congrArg (fun t => t.2.1) h

theorem tag_pushes (h : o.tag = op.tag) : o.pushes = op.pushes := congrArg (fun t => t.2.2) h

theorem indices_congr {ops ops' : List (Op A B R S)} (h : ops.map Op.tag = ops'.map Op.tag) :
    ops.map Op.index = ops'.map Op.index := by
  simpa [Op.tag, Function.comp_def] using congrArg (List.map Prod.fst) h

theorem newest_congr (h : o.tag = op.tag) : o.newest = op.newest := by
  rw [Op.newest, tag_pushes h, Op.newest]

theorem Carries.append (h : Carries env pushed op) (p : Op A B R S) :
    Carries env (pushed ++ [p]) op := by
  obtain ⟨q, hq, hrest⟩ := h
  refine ⟨q, ?_, hrest⟩
  rw [List.getElem?_append_left (List.getElem?_eq_some_iff.mp hq).1]
  exact hq

theorem Carries.newest_lt (h : Carries env pushed op) : op.newest < pushed.length := by
  obtain ⟨p, hp, -⟩ := h
  exact (List.getElem?_eq_some_iff.mp hp).1

theorem Carries.congr (h : Carries env pushed op) (hnewest : o.newest = op.newest)
    (haddress : o.address = op.address) (hmode : o.mode = op.mode)
    (hsignature : o.remove_signature = op.remove_signature)
    (hblock : o.block.map env.data = op.block.map env.data) : Carries env pushed o := by
  obtain ⟨p, hp, h⟩ := h
  rw [Carries, hnewest, haddress, hmode, hsignature, hblock]
  exact ⟨p, hp, h⟩

theorem sealed_data (b : Option B) : (b.map env.sealed).map env.data = b.map env.data := by
  cases b with
  | none => rfl
  | some b => simp [env.data_sealed]

theorem resealed_data : (Async.resealed env cop op).map env.data = op.block.map env.data := by
  unfold Async.resealed
  cases op.block with
  | none => rfl
  | some b => simp [env.data_sealed_at]

namespace Async

variable {s s' : Async A B R S}

/-! ## The operations of the queue -/

/-- The operations on their way to `_operations`. -/
def later (s : Async A B R S) : List (Op A B R S) := s.waiting.toList ++ s._reentered_ops

theorem pending_eq (s : Async A B R S) : s.pending = s._operations ++ s.later :=
  List.append_assoc _ _ _

/-- The operation that the loop processes. -/
def executing (s : Async A B R S) : Option (Op A B R S) :=
  match s.loop with
  | .calling op | .sleeping op => some op
  | _ => none

/-- A file of the journal holds the operation, as it was pushed last. -/
def Held (env : Blocks A B D R S) (pushed : List (Op A B R S)) (t : Table Int (File A B R S))
    (op : Op A B R S) : Prop :=
  ∃ f, find t op.index = some (some f) ∧ f.address = op.address ∧ f.pushes = op.pushes ∧
    Carries env pushed f

/-- What holds of the operations, those on their way apart, in each state. An operation in memory
whose index waits for the loop is all there, and the journal holds each one. -/
structure Kept (env : Blocks A B D R S) (s : Async A B R S) (later : List (Op A B R S)) : Prop where
  ascending : ((s._operations ++ later).map Op.index).Pairwise (· < ·)
  numbered : ∀ op ∈ s._operations ++ later, op.index ≤ s._next_index
  queued : s._queue.Pairwise (· < ·)
  queued_numbered : ∀ i ∈ s._queue, i ≤ s._next_index
  behind : ∀ op ∈ later, ∀ i ∈ s._queue, i < op.index
  before_disk : ∀ f, s._first_disk_index = some f → ∀ i ∈ s._queue, i < f
  known : ∀ op ∈ s._operations ++ later, op.newest < s.pushed.length
  head : ∀ op, s.executing = some op → s.sent.getLast? = some op ∧ (∀ j ∈ s._queue, op.index < j) ∧
    ∃ o ops, s._operations = o :: ops ∧ o.tag = op.tag
  in_memory : ∀ op ∈ s._operations, op.index ∈ s._queue ∨ op.block.isSome →
    Carries env s.pushed op
  on_the_way : ∀ op ∈ later, Carries env s.pushed op
  sent : ∀ op ∈ s.sent, Carries env s.pushed op
  held : ∀ t, s._journal_dir = some t → ∀ op ∈ s._operations ++ later, Held env s.pushed t op

theorem Kept.congr (h : Kept env s ops) (hoperations : s'._operations = s._operations)
    (hqueue : s'._queue = s._queue) (hnext : s'._next_index = s._next_index)
    (hfirst : s'._first_disk_index = s._first_disk_index) (hpushed : s'.pushed = s.pushed)
    (hloop : s'.loop = s.loop) (hsent : s'.sent = s.sent)
    (hjournal : s'._journal_dir = s._journal_dir) : Kept env s' ops := by
  have hexecuting : s'.executing = s.executing := by rw [executing, hloop, executing]
  constructor
  · rw [hoperations]
    exact h.ascending
  · rw [hoperations, hnext]
    exact h.numbered
  · rw [hqueue]
    exact h.queued
  · rw [hqueue, hnext]
    exact h.queued_numbered
  · rw [hqueue]
    exact h.behind
  · rw [hfirst, hqueue]
    exact h.before_disk
  · rw [hoperations, hpushed]
    exact h.known
  · rw [hexecuting, hsent, hqueue, hoperations]
    exact h.head
  · rw [hoperations, hqueue, hpushed]
    exact h.in_memory
  · rw [hpushed]
    exact h.on_the_way
  · rw [hsent, hpushed]
    exact h.sent
  · rw [hjournal, hoperations, hpushed]
    exact h.held

theorem Held.append (h : Held env pushed t op) (p : Op A B R S) :
    Held env (pushed ++ [p]) t op := by
  obtain ⟨f, hf, haddress, hpushes, hcarries⟩ := h
  exact ⟨f, hf, haddress, hpushes, hcarries.append p⟩

theorem Held.congr (h : Held env pushed t op) (htag : o.tag = op.tag) : Held env pushed t o := by
  rw [Held, tag_index htag, tag_address htag, tag_pushes htag]
  exact h

theorem Kept.pushing (h : Kept env s ops) (p : Op A B R S) :
    Kept env { s with pushed := s.pushed ++ [p] } ops := by
  refine { h with known := ?_, in_memory := ?_, on_the_way := ?_, sent := ?_, held := ?_ }
  · intro op hop
    have hlt := h.known op hop
    simp only [List.length_append, List.length_singleton]
    omega
  · exact fun op hop hin => (h.in_memory op hop hin).append p
  · exact fun op hop => (h.on_the_way op hop).append p
  · exact fun op hop => (h.sent op hop).append p
  · exact fun t ht op hop => (h.held t ht op hop).append p

theorem Held.saved (h : Held env pushed t op) (hne : o.index ≠ op.index) :
    Held env pushed ((saved o).foldl Fs.run t) op := by
  obtain ⟨f, hf, hrest⟩ := h
  exact ⟨f, by rw [find_saved, Function.update_of_ne hne.symm, hf], hrest⟩

theorem Held.removed (h : Held env pushed t op) {i : Int} (hne : i ≠ op.index) :
    Held env pushed ([Fs.remove i].foldl Fs.run t) op := by
  obtain ⟨f, hf, hrest⟩ := h
  exact ⟨f, by rw [find_removed, Function.update_of_ne hne.symm, hf], hrest⟩

theorem held_saved (t : Table Int (File A B R S)) (h : Carries env pushed op) :
    Held env pushed ((saved op).foldl Fs.run t) op :=
  ⟨op, by rw [find_saved, Function.update_self], rfl, rfl, h⟩

theorem Kept.coming (h : Kept env s ops) (hnext : s._next_index ≤ s'._next_index)
    (hlt : ∀ o ∈ s._operations ++ ops, o.index < op.index)
    (hqueue : ∀ i ∈ s._queue, i < op.index) (hle : op.index ≤ s'._next_index)
    (hcarries : Carries env s.pushed op) (hs' : s' = { s with
      _next_index := s'._next_index, _journal_dir := s'._journal_dir })
    (hheld : ∀ t, s'._journal_dir = some t → Held env s.pushed t op ∧
      ∀ o ∈ s._operations ++ ops, Held env s.pushed t o) : Kept env s' (ops ++ [op]) := by
  rw [hs'] at *
  dsimp only at *
  constructor
  · dsimp only
    rw [← List.append_assoc, List.map_append, List.pairwise_append]
    refine ⟨h.ascending, List.pairwise_singleton _ _, ?_⟩
    simp only [List.mem_map]
    rintro i ⟨o, ho, rfl⟩ j ⟨o', ho', rfl⟩
    rw [List.mem_singleton.mp ho']
    exact hlt o ho
  · intro o ho
    rw [← List.append_assoc, List.mem_append, List.mem_singleton] at ho
    rcases ho with ho | rfl
    · exact (h.numbered o ho).trans hnext
    · exact hle
  · exact h.queued
  · exact fun i hi => (h.queued_numbered i hi).trans hnext
  · intro o ho
    rw [List.mem_append, List.mem_singleton] at ho
    rcases ho with ho | rfl
    · exact h.behind o ho
    · exact hqueue
  · exact h.before_disk
  · intro o ho
    rw [← List.append_assoc, List.mem_append, List.mem_singleton] at ho
    rcases ho with ho | rfl
    · exact h.known o ho
    · exact hcarries.newest_lt
  · exact h.head
  · exact h.in_memory
  · intro o ho
    rw [List.mem_append, List.mem_singleton] at ho
    rcases ho with ho | rfl
    · exact h.on_the_way o ho
    · exact hcarries
  · exact h.sent
  · intro t ht o ho
    rw [← List.append_assoc, List.mem_append, List.mem_singleton] at ho
    rcases ho with ho | rfl
    · exact (hheld t ht).2 o ho
    · exact (hheld t ht).1

theorem Kept.written (h : Kept env s ops) (hcarries : Carries env s.pushed op) :
    Kept env (written op s) (ops ++ [{ op with index := s._next_index + 1 }]) := by
  have hcarries' : Carries env s.pushed { op with index := s._next_index + 1 } :=
    hcarries.congr rfl rfl rfl rfl rfl
  have hlt : ∀ o ∈ s._operations ++ ops, o.index < s._next_index + 1 := fun o ho => by
    have hle := h.numbered o ho
    omega
  have hnext : (Async.written op s)._next_index = s._next_index + 1 := rfl
  refine h.coming ?_ hlt (fun i hi => ?_) ?_ hcarries' rfl ?_
  · rw [hnext]
    omega
  · have hle := h.queued_numbered i hi
    simp only
    omega
  · rw [hnext]
  · intro t' ht'
    obtain ⟨t, ht, rfl⟩ := Option.map_eq_some_iff.mp ht'
    refine ⟨held_saved t hcarries', fun o ho => (h.held t ht o ho).saved ?_⟩
    have hne := hlt o ho
    simp only
    omega

/-- An operation comes to `_operations`, whole and in the queue, or just for its address. -/
structure Queued (s s' : Async A B R S) (op : Op A B R S) : Prop where
  rest : s' = { s with
    _operations := s'._operations, _queue := s'._queue, _first_disk_index := s'._first_disk_index }
  place : ∃ o, s'._operations = s._operations ++ [o] ∧ o.tag = op.tag ∧
    (s'._queue = s._queue ++ [op.index] ∧ s._first_disk_index = none ∧
      s'._first_disk_index = none ∧ o.block = op.block ∧ o.mode = op.mode ∧
        o.remove_signature = op.remove_signature ∨
      s'._queue = s._queue ∧ o.block = none ∧ (s'._first_disk_index = s._first_disk_index ∨
        s'._first_disk_index = some op.index))

theorem queued (h : queue env op s = some s') (hlt : ∀ o ∈ s._operations, o.index < op.index) :
    Queued s s' op := by
  have hlast : ∀ o : Op A B R S, o.index = op.index →
      emplace o s._operations = s._operations ++ [o] :=
    fun o ho => emplace_last fun o' ho' => ho ▸ hlt o' ho'
  rcases queue_cases h with ⟨f, -, rfl⟩ | ⟨-, -, -, rfl⟩ | ⟨hnone, -, rfl⟩
  · exact ⟨rfl, _, hlast _ rfl, rfl, Or.inr ⟨rfl, rfl, Or.inl rfl⟩⟩
  · exact ⟨rfl, _, hlast _ rfl, rfl, Or.inr ⟨rfl, rfl, Or.inr rfl⟩⟩
  · exact ⟨rfl, _, hlast _ rfl, rfl, Or.inl ⟨rfl, hnone, hnone, rfl, rfl, rfl⟩⟩

theorem Kept.queue (h : Kept env s (op :: ops)) (hq : Queued s s' op) : Kept env s' ops := by
  obtain ⟨hrest, o, hoperations, htag, hplace⟩ := hq
  have hindex : o.index = op.index := tag_index htag
  have hnext : s'._next_index = s._next_index := by rw [hrest]
  have hpushed : s'.pushed = s.pushed := by rw [hrest]
  have hsent : s'.sent = s.sent := by rw [hrest]
  have hjournal : s'._journal_dir = s._journal_dir := by rw [hrest]
  have hexecuting : s'.executing = s.executing := by rw [hrest]; rfl
  have hall : ∀ q ∈ s'._operations ++ ops, q = o ∨ q ∈ s._operations ++ op :: ops := by
    intro q hq
    rw [hoperations, List.append_assoc, List.mem_append, List.singleton_append,
      List.mem_cons] at hq
    rw [List.mem_append, List.mem_cons]
    tauto
  have hop : op ∈ s._operations ++ op :: ops := by simp
  have habove : ∀ q ∈ s._operations, q.index < op.index := by
    intro q hq
    have hascending := h.ascending
    rw [List.map_append, List.pairwise_append, List.map_cons] at hascending
    exact hascending.2.2 q.index (List.mem_map_of_mem hq) op.index (by simp)
  have hqueue : ∀ i ∈ s'._queue, i ∈ s._queue ∨ i = op.index := by
    intro i hi
    rcases hplace with ⟨hq, -⟩ | ⟨hq, -⟩
    · rw [hq, List.mem_append, List.mem_singleton] at hi
      exact hi
    · exact Or.inl (hq ▸ hi)
  constructor
  · have hascending := h.ascending
    rw [List.map_append, List.map_cons] at hascending
    rw [hoperations, List.append_assoc, List.map_append, List.singleton_append, List.map_cons,
      hindex]
    exact hascending
  · intro q hq
    rw [hnext]
    rcases hall q hq with rfl | hq
    · exact hindex ▸ h.numbered op hop
    · exact h.numbered q hq
  · rcases hplace with ⟨hq, -⟩ | ⟨hq, -⟩
    · rw [hq, List.pairwise_append]
      refine ⟨h.queued, List.pairwise_singleton _ _, fun i hi j hj => ?_⟩
      rw [List.mem_singleton.mp hj]
      exact h.behind op (by simp) i hi
    · rw [hq]
      exact h.queued
  · intro i hi
    rw [hnext]
    rcases hqueue i hi with hi | rfl
    · exact h.queued_numbered i hi
    · exact h.numbered op hop
  · intro q hq i hi
    rcases hqueue i hi with hi | rfl
    · exact h.behind q (by simp [hq]) i hi
    · have hascending := (List.pairwise_append.mp (List.map_append ▸ h.ascending)).2.1
      rw [List.map_cons, List.pairwise_cons] at hascending
      exact hascending.1 q.index (List.mem_map_of_mem hq)
  · intro f hf i hi
    rcases hplace with ⟨-, -, hnone, -⟩ | ⟨hq, -, hfirst | hfirst⟩
    · rw [hnone] at hf
      cases hf
    · exact h.before_disk f (hfirst ▸ hf) i (hq ▸ hi)
    · obtain rfl : op.index = f := Option.some.inj (hfirst.symm.trans hf)
      exact h.behind op (by simp) i (hq ▸ hi)
  · intro q hq
    rw [hpushed]
    rcases hall q hq with rfl | hq
    · exact newest_congr htag ▸ h.known op hop
    · exact h.known q hq
  · intro q hq
    rw [hexecuting] at hq
    rw [hsent]
    obtain ⟨hlast, hlt, o', ops', hops, htag'⟩ := h.head q hq
    refine ⟨hlast, fun j hj => ?_, o', ops' ++ [o], by rw [hoperations, hops]; rfl, htag'⟩
    rcases hqueue j hj with hj | rfl
    · exact hlt j hj
    · have hlt' := habove o' (by simp [hops])
      rw [← tag_index htag']
      exact hlt'
  · intro q hq hin
    rw [hpushed]
    rw [hoperations, List.mem_append, List.mem_singleton] at hq
    rcases hq with hq | rfl
    · apply h.in_memory q hq
      rcases hin with hin | hin
      · rcases hqueue q.index hin with hin | hin
        · exact Or.inl hin
        · have hlt := habove q hq
          omega
      · exact Or.inr hin
    · rcases hplace with ⟨-, -, -, hblock, hmode, hsignature⟩ | ⟨hq, hblock, -⟩
      · exact (h.on_the_way op (by simp)).congr (newest_congr htag) (tag_address htag) hmode
          hsignature (congrArg _ hblock)
      · rcases hin with hin | hin
        · rw [hq, hindex] at hin
          exact absurd (h.behind op (by simp) op.index hin) (lt_irrefl _)
        · rw [hblock] at hin
          cases hin
  · rw [hpushed]
    exact fun q hq => h.on_the_way q (by simp [hq])
  · rw [hsent, hpushed]
    exact h.sent
  · intro t ht q hq
    rw [hpushed]
    rw [hjournal] at ht
    rcases hall q hq with rfl | hq
    · exact (h.held t ht op hop).congr htag
    · exact h.held t ht q hq

theorem Queued.tags (h : Queued s s' op) :
    s'._operations.map Op.tag = s._operations.map Op.tag ++ [op.tag] := by
  obtain ⟨-, o, hoperations, htag, -⟩ := h
  rw [hoperations, List.map_append, List.map_singleton, htag]

theorem Kept.below (h : Kept env s (op :: ops)) : ∀ o ∈ s._operations, o.index < op.index := by
  intro o ho
  have hascending := h.ascending
  rw [List.map_append, List.pairwise_append, List.map_cons] at hascending
  exact hascending.2.2 o.index (List.mem_map_of_mem ho) op.index (by simp)

/-- What stays when operations that were pushed already come in. -/
structure Still (s s' : Async A B R S) : Prop where
  pushed : s'.pushed = s.pushed
  sent : s'.sent = s.sent
  done : s'.done = s.done
  loop : s'.loop = s.loop

theorem Still.executing (h : Still s s') : s'.executing = s.executing := by
  rw [Async.executing, h.loop, Async.executing]

theorem Queued.still (h : Queued s s' op) : Still s s' := by
  rw [h.rest]
  exact ⟨rfl, rfl, rfl, rfl⟩

theorem Kept.flush (h : Kept env s ops) :
    Kept env (flush env ops s) (flush env ops s).later ∧ Still s (flush env ops s) ∧
      (flush env ops s).pending.map Op.tag = (s._operations ++ ops).map Op.tag ∧
      ((flush env ops s).waiting = none → (flush env ops s)._reentered_ops = []) := by
  induction ops generalizing s with
  | nil =>
    exact ⟨h.congr rfl rfl rfl rfl rfl rfl rfl rfl, ⟨rfl, rfl, rfl, rfl⟩,
      by simp [Async.flush, pending], fun _ => rfl⟩
  | cons op ops ih =>
    rw [Async.flush]
    cases hq : Async.queue env op s with
    | none =>
      refine ⟨h.congr rfl rfl rfl rfl rfl rfl rfl rfl, ⟨rfl, rfl, rfl, rfl⟩, by simp [pending], ?_⟩
      intro hnone
      cases hnone
    | some s' =>
      have hqueued := Async.queued hq h.below
      have hstill := hqueued.still
      obtain ⟨hkept, hstill', htags, hquiet⟩ := ih (h.queue hqueued)
      refine ⟨hkept, ⟨hstill'.pushed.trans hstill.pushed, hstill'.sent.trans hstill.sent,
        hstill'.done.trans hstill.done, hstill'.loop.trans hstill.loop⟩, ?_, hquiet⟩
      rw [htags, List.map_append, hqueued.tags, List.map_append, List.append_assoc]
      rfl

/-! ## Squashes -/

variable {before after rest : List (Op A B R S)} {current : Op A B R S}

theorem Kept.apart (h : Kept env s ops) (hsplit : s._operations = before ++ cop :: after) :
    ∀ o ∈ before ++ after ++ ops, o.index ≠ cop.index := by
  have hascending := h.ascending
  rw [hsplit, List.append_assoc, List.map_append, List.pairwise_append, List.cons_append,
    List.map_cons, List.pairwise_cons] at hascending
  obtain ⟨-, ⟨hafter, -⟩, hbefore⟩ := hascending
  intro o ho
  rw [List.append_assoc, List.mem_append] at ho
  rcases ho with ho | ho
  · exact (hbefore o.index (List.mem_map_of_mem ho) cop.index (by simp)).ne
  · exact (hafter o.index (List.mem_map_of_mem ho)).ne'

theorem Kept.overwritten (h : Kept env s ops) (hsplit : s._operations = before ++ cop :: after)
    (op : Op A B R S) :
    (overwrite env cop op s)._operations = before ++ merged_first env cop op :: after := by
  have hother : ∀ l : List (Op A B R S), (∀ o ∈ l, o ∈ before ++ after ++ ops) →
      (l.map fun o => if o.index = cop.index then merged_first env cop op else o) = l := by
    intro l hl
    apply List.map_congr_left (g := id) _ |>.trans (List.map_id l)
    exact fun o ho => if_neg (h.apart hsplit o (hl o ho))
  change List.map _ s._operations = _
  rw [hsplit, List.map_append, List.map_cons, if_pos rfl, hother before fun o ho => by simp [ho],
    hother after fun o ho => by simp [ho]]

theorem Kept.erased (h : Kept env s ops) (hsplit : s._operations = before ++ cop :: after) :
    (s.erase cop)._operations = before ++ after := by
  have hother : ∀ l : List (Op A B R S), (∀ o ∈ l, o ∈ before ++ after ++ ops) →
      l.filter (fun o => o.index ≠ cop.index) = l := by
    intro l hl
    rw [List.filter_eq_self]
    exact fun o ho => by simpa using h.apart hsplit o (hl o ho)
  change List.filter _ s._operations = _
  rw [hsplit, List.filter_append, List.filter_cons_of_neg (by simp),
    hother before fun o ho => by simp [ho], hother after fun o ho => by simp [ho]]

theorem Kept.overwrite (h : Kept env s ops) (hsplit : s._operations = before ++ cop :: after)
    (hbefore : before ≠ []) (hcarries : Carries env s.pushed (merged_first env cop op)) :
    Kept env (overwrite env cop op s) ops := by
  have hoperations := h.overwritten hsplit op
  have hindices : ((Async.overwrite env cop op s)._operations ++ ops).map Op.index =
      (s._operations ++ ops).map Op.index := by
    rw [hoperations, hsplit]
    simp [merged_first]
  have hall : ∀ q ∈ (Async.overwrite env cop op s)._operations ++ ops,
      q = merged_first env cop op ∨ q ∈ s._operations ++ ops ∧ q.index ≠ cop.index := by
    intro q hq
    rw [hoperations] at hq
    simp only [List.mem_append, List.mem_cons] at hq
    have hapart := h.apart hsplit q
    simp only [List.mem_append] at hapart
    rw [hsplit]
    simp only [List.mem_append, List.mem_cons]
    tauto
  constructor
  · rw [hindices]
    exact h.ascending
  · intro q hq
    rcases hall q hq with rfl | ⟨hq, -⟩
    · exact h.numbered cop (by simp [hsplit])
    · exact h.numbered q hq
  · exact h.queued
  · exact h.queued_numbered
  · exact h.behind
  · exact h.before_disk
  · intro q hq
    rcases hall q hq with rfl | ⟨hq, -⟩
    · exact hcarries.newest_lt
    · exact h.known q hq
  · intro q hq
    obtain ⟨hlast, hlt, o, l, hops, htag⟩ := h.head q hq
    refine ⟨hlast, hlt, ?_⟩
    obtain ⟨b, before', rfl⟩ := List.exists_cons_of_ne_nil hbefore
    rw [hsplit, List.cons_append, List.cons.injEq] at hops
    exact ⟨b, _, hoperations, hops.1 ▸ htag⟩
  · intro q hq hin
    rcases hall q (by simp [hq]) with rfl | ⟨hq', hne⟩
    · exact hcarries
    · apply h.in_memory q _ hin
      rw [hoperations] at hq
      rw [hsplit]
      simp only [List.mem_append, List.mem_cons] at hq ⊢
      rcases hq with hq | rfl | hq
      · exact Or.inl hq
      · exact absurd rfl hne
      · exact Or.inr (Or.inr hq)
  · exact h.on_the_way
  · exact h.sent
  · intro t' ht' q hq
    obtain ⟨t, ht, rfl⟩ := Option.map_eq_some_iff.mp ht'
    rcases hall q hq with rfl | ⟨hq, hne⟩
    · exact held_saved t hcarries
    · exact (h.held t ht q hq).saved hne.symm

theorem Kept.erase (h : Kept env s ops) (hsplit : s._operations = before ++ cop :: after)
    (hbefore : before ≠ []) : Kept env (s.erase cop) ops := by
  have hoperations := h.erased hsplit
  have hall : ∀ q ∈ (s.erase cop)._operations ++ ops,
      q ∈ s._operations ++ ops ∧ q.index ≠ cop.index := by
    intro q hq
    rw [hoperations] at hq
    refine ⟨?_, h.apart hsplit q hq⟩
    rw [hsplit]
    simp only [List.mem_append, List.mem_cons] at hq ⊢
    tauto
  have hsub : ∀ q ∈ (s.erase cop)._operations, q ∈ s._operations := by
    intro q hq
    rw [hoperations] at hq
    rw [hsplit]
    simp only [List.mem_append, List.mem_cons] at hq ⊢
    tauto
  constructor
  · have hascending := h.ascending
    rw [hsplit] at hascending
    rw [hoperations]
    refine hascending.sublist (List.Sublist.map _ ?_)
    exact ((List.sublist_cons_self cop after).append_left before).append_right ops
  · exact fun q hq => h.numbered q (hall q hq).1
  · exact h.queued
  · exact h.queued_numbered
  · exact h.behind
  · intro f hf i hi
    simp only [Async.erase, fs] at hf
    split_ifs at hf with hcop
    · have hlt := h.before_disk cop.index hcop i hi
      have hf' := Option.some.inj hf
      omega
    · exact h.before_disk f hf i hi
  · exact fun q hq => h.known q (hall q hq).1
  · intro q hq
    obtain ⟨hlast, hlt, o, l, hops, htag⟩ := h.head q hq
    refine ⟨hlast, hlt, ?_⟩
    obtain ⟨b, before', rfl⟩ := List.exists_cons_of_ne_nil hbefore
    rw [hsplit, List.cons_append, List.cons.injEq] at hops
    exact ⟨b, _, hoperations, hops.1 ▸ htag⟩
  · exact fun q hq hin => h.in_memory q (hsub q hq) hin
  · exact h.on_the_way
  · exact h.sent
  · intro t' ht' q hq
    obtain ⟨t, ht, rfl⟩ := Option.map_eq_some_iff.mp ht'
    exact (h.held t ht q (hall q hq).1).removed (hall q hq).2.symm

/-! ## The loop -/

theorem Kept.same_index (h : Kept env s ops) (hop : op ∈ s._operations) (ho : o ∈ s._operations)
    (hindex : o.index = op.index) : o = op := by
  have hascending := (List.pairwise_append.mp (List.map_append ▸ h.ascending)).1
  obtain ⟨before, after, hsplit⟩ := List.append_of_mem hop
  have hapart := h.apart hsplit o
  rw [hsplit, List.mem_append, List.mem_cons] at ho
  simp only [List.mem_append] at hapart
  tauto

theorem loaded_carries [Inhabited S] (hj : s._journal_dir = some t) (hheld : Held env s.pushed t op)
    {l : Op A B R S} (hl : s._load_op env op.index true = some l) :
    Carries env s.pushed l ∧ l.address = op.address ∧ l.newest = op.newest := by
  obtain ⟨f, hf, haddress, hpushes, hcarries⟩ := hheld
  have hl' : l = f.loaded env op.index true := by
    simp only [_load_op, hj, Option.bind_some, hf, Option.join_some, Option.map_some,
      Option.some.injEq] at hl
    exact hl.symm
  rw [hl']
  refine ⟨hcarries.congr rfl rfl rfl rfl (sealed_data f.block), haddress, ?_⟩
  rw [Op.newest, Op.newest, ← hpushes]
  rfl

theorem Kept.reload_one (h : Kept env s ops) (hop : op ∈ s._operations)
    (hbelow : ∀ i ∈ s._queue, i < op.index) (hidle : s.executing = none)
    (hfirst : s._first_disk_index = none) {q : Op A B R S} (htag : q.tag = op.tag)
    (hq : Carries env s.pushed q) :
    Kept env { s.put_index op.index with
      _operations := s._operations.map fun o => if o.index = op.index then q else o } ops ∧
    (s._operations.map fun o => if o.index = op.index then q else o).map Op.tag =
      s._operations.map Op.tag := by
  have htags : (s._operations.map fun o => if o.index = op.index then q else o).map Op.tag =
      s._operations.map Op.tag := by
    rw [List.map_map]
    apply List.map_congr_left
    intro o ho
    by_cases hindex : o.index = op.index
    · simp [htag, h.same_index hop ho hindex]
    · simp [hindex]
  have hindices : ((s._operations.map fun o => if o.index = op.index then q else o) ++ ops).map
      Op.index = (s._operations ++ ops).map Op.index := by
    rw [List.map_append, List.map_append, indices_congr htags]
  have hall : ∀ o ∈ (s._operations.map fun o => if o.index = op.index then q else o) ++ ops,
      (o = q ∨ o ∈ s._operations ++ ops) ∧ ∃ o' ∈ s._operations ++ ops, o.tag = o'.tag := by
    intro o ho
    rw [List.mem_append, List.mem_map] at ho
    rcases ho with ⟨o', ho', rfl⟩ | ho
    · split_ifs with hindex
      · exact ⟨Or.inl rfl, op, by simp [hop], htag⟩
      · exact ⟨Or.inr (by simp [ho']), o', by simp [ho'], rfl⟩
    · exact ⟨Or.inr (by simp [ho]), o, by simp [ho], rfl⟩
  refine ⟨?_, htags⟩
  constructor
  · rw [hindices]
    exact h.ascending
  · intro o ho
    obtain ⟨-, o', ho', htag'⟩ := hall o ho
    rw [tag_index htag']
    exact h.numbered o' ho'
  · change (s._queue ++ [op.index]).Pairwise (· < ·)
    rw [List.pairwise_append]
    refine ⟨h.queued, List.pairwise_singleton _ _, fun i hi j hj => ?_⟩
    rw [List.mem_singleton.mp hj]
    exact hbelow i hi
  · intro i hi
    rcases List.mem_append.mp hi with hi | hi
    · exact h.queued_numbered i hi
    · rw [List.mem_singleton.mp hi]
      exact h.numbered op (by simp [hop])
  · intro o ho i hi
    rcases List.mem_append.mp hi with hi | hi
    · exact h.behind o ho i hi
    · rw [List.mem_singleton.mp hi]
      have hascending := h.ascending
      rw [List.map_append, List.pairwise_append] at hascending
      exact hascending.2.2 _ (List.mem_map_of_mem hop) _ (List.mem_map_of_mem ho)
  · intro f hf
    exact absurd (hf.symm.trans hfirst) (by simp)
  · intro o ho
    obtain ⟨-, o', ho', htag'⟩ := hall o ho
    rw [newest_congr htag']
    exact h.known o' ho'
  · intro o ho
    exact absurd (ho.symm.trans hidle) (by simp)
  · intro o ho hin
    obtain ⟨o', ho', rfl⟩ := List.mem_map.mp ho
    split_ifs at hin ⊢ with hindex
    · exact hq
    · apply h.in_memory o' ho'
      rcases hin with hin | hin
      · rcases List.mem_append.mp hin with hin | hin
        · exact Or.inl hin
        · exact absurd (List.mem_singleton.mp hin) hindex
      · exact Or.inr hin
  · exact h.on_the_way
  · exact h.sent
  · intro t ht o ho
    obtain ⟨-, o', ho', htag'⟩ := hall o ho
    exact (h.held t ht o' ho').congr htag'

/-- What a reload leaves as it is. -/
structure Alike (s s' : Async A B R S) : Prop extends Still s s' where
  tags : s'._operations.map Op.tag = s._operations.map Op.tag
  waiting : s'.waiting = s.waiting
  reentered : s'._reentered_ops = s._reentered_ops

theorem Kept.reload [Inhabited S] {l : List (Op A B R S)}
    (h : Kept env { s with _first_disk_index := none } ops) (hin : ∀ o ∈ l, o ∈ s._operations)
    (hl : (l.map Op.index).Pairwise (· < ·)) (hbelow : ∀ o ∈ l, ∀ i ∈ s._queue, i < o.index)
    (hidle : s.executing = none) :
    Kept env (reload env l s) ops ∧ Alike s (reload env l s) := by
  induction l generalizing s with
  | nil => exact ⟨h, ⟨rfl, rfl, rfl, rfl⟩, rfl, rfl, rfl⟩
  | cons op l ih =>
    rw [List.map_cons, List.pairwise_cons] at hl
    rw [Async.reload]
    split_ifs with hfull
    · refine ⟨{ h with before_disk := ?_ }, ⟨rfl, rfl, rfl, rfl⟩, rfl, rfl, rfl⟩
      intro f hf i hi
      rw [← Option.some.inj hf]
      exact hbelow op (by simp) i hi
    · cases hload : s._load_op env op.index with
      | none =>
        exact ih h (fun o ho => hin o (by simp [ho])) hl.2 (fun o ho => hbelow o (by simp [ho]))
          hidle
      | some q =>
        dsimp only
        obtain ⟨t, ht⟩ : ∃ t, s._journal_dir = some t := by
          cases hj : s._journal_dir with
          | some t => exact ⟨t, rfl⟩
          | none => simp [_load_op, hj] at hload
        have hop : op ∈ s._operations := hin op (by simp)
        obtain ⟨hq, haddress, hnewest⟩ := loaded_carries ht (h.held t ht op (by simp [hop])) hload
        obtain ⟨hkept, htags⟩ := h.reload_one hop (hbelow op (by simp)) hidle rfl
          (q := { op with block := q.block, mode := q.mode, resolver := q.resolver,
                          remove_signature := q.remove_signature }) rfl
          (hq.congr hnewest.symm haddress.symm rfl rfl rfl)
        have hin' : ∀ o ∈ l, o ∈ s._operations.map fun o => if o.index = op.index then
            { op with block := q.block, mode := q.mode, resolver := q.resolver,
                      remove_signature := q.remove_signature } else o := by
          intro o ho
          have hlt := hl.1 o.index (List.mem_map_of_mem ho)
          exact List.mem_map.mpr ⟨o, hin o (by simp [ho]), if_neg (by omega)⟩
        have hbelow' : ∀ o ∈ l, ∀ i ∈ s._queue ++ [op.index], i < o.index := by
          intro o ho i hi
          rcases List.mem_append.mp hi with hi | hi
          · exact hbelow o (by simp [ho]) i hi
          · rw [List.mem_singleton.mp hi]
            exact hl.1 o.index (List.mem_map_of_mem ho)
        obtain ⟨hkept', halike⟩ := ih (s := { s.put_index op.index with _operations := _ }) hkept
          hin' hl.2 hbelow' hidle
        exact ⟨hkept', { halike with },
          halike.tags.trans htags, halike.waiting, halike.reentered⟩

theorem le_of_mem_dropWhile {l : List (Op A B R S)} (h : (l.map Op.index).Pairwise (· < ·))
    {f : Int} (ho : o ∈ l.dropWhile fun op => op.index ≠ f) : f ≤ o.index := by
  induction l with
  | nil => cases ho
  | cons op l ih =>
    rw [List.map_cons, List.pairwise_cons] at h
    by_cases hop : op.index = f
    · rw [List.dropWhile_cons_of_neg (by simpa using hop), List.mem_cons] at ho
      rcases ho with rfl | ho
      · omega
      · have hlt := h.1 o.index (List.mem_map_of_mem ho)
        omega
    · rw [List.dropWhile_cons_of_pos (by simpa using hop)] at ho
      exact ih h.2 ho

theorem Kept.load_operations [Inhabited S] (h : Kept env s ops) (hidle : s.executing = none) :
    Kept env (s._load_operations env) ops ∧ Alike s (s._load_operations env) := by
  unfold _load_operations
  split
  · rename_i t f ht hf
    have hsublist := List.dropWhile_sublist (l := s._operations) fun op => op.index ≠ f
    have hascending := (List.pairwise_append.mp (List.map_append ▸ h.ascending)).1
    have hkept : Kept env { s with _first_disk_index := none } ops := by
      refine { h with before_disk := ?_ }
      intro f hf
      cases hf
    refine hkept.reload (fun o ho => hsublist.subset ho) (hascending.sublist (hsublist.map _)) ?_
      hidle
    intro o ho i hi
    exact (h.before_disk f hf i hi).trans_le (le_of_mem_dropWhile hascending ho)
  · exact ⟨h, ⟨rfl, rfl, rfl, rfl⟩, rfl, rfl, rfl⟩

/-- What a turn of the loop changes: the first operation may be sent. -/
structure Took (s s' : Async A B R S) : Prop where
  tags : s'._operations.map Op.tag = s._operations.map Op.tag
  waiting : s'.waiting = s.waiting
  reentered : s'._reentered_ops = s._reentered_ops
  pushed : s'.pushed = s.pushed
  done : s'.done = s.done
  sent : s'.sent = s.sent ∧ s'.executing = none ∨ ∃ op, s'.sent = s.sent ++ [op] ∧
    s'.executing = some op ∧ (s._operations.head?).map Op.tag = some op.tag

theorem Took.later (h : Took s s') : s'.later = s.later := by
  rw [Async.later, h.waiting, h.reentered, Async.later]

theorem Kept.shorter (h : Kept env s ops) {queue : List Int} (hsub : queue.Sublist s._queue) :
    Kept env { s with _queue := queue } ops := by
  have hin : ∀ i ∈ queue, i ∈ s._queue := fun i hi => hsub.subset hi
  refine ⟨h.ascending, h.numbered, h.queued.sublist hsub,
    fun i hi => h.queued_numbered i (hin i hi), fun o ho i hi => h.behind o ho i (hin i hi),
    fun f hf i hi => h.before_disk f hf i (hin i hi), h.known, ?_, ?_, h.on_the_way, h.sent, h.held⟩
  · intro o ho
    obtain ⟨hlast, hlt, hhead⟩ := h.head o ho
    exact ⟨hlast, fun j hj => hlt j (hin j hj), hhead⟩
  · intro o ho hmem
    exact h.in_memory o ho (hmem.imp_left (hin _))

theorem Kept.idle (h : Kept env s ops) {loop : Loop A B R S}
    (hidle : executing { s with loop } = none) : Kept env { s with loop } ops := by
  refine { h with head := ?_ }
  intro o ho
  exact absurd (ho.symm.trans hidle) (by simp)

theorem Kept.call (h : Kept env s ops) {l : List (Op A B R S)} (hops : s._operations = op :: l)
    (hcarries : Carries env s.pushed op) (hbelow : ∀ i ∈ s._queue, op.index < i) :
    Kept env (s.call op l) ops ∧ Took s (s.call op l) := by
  obtain ⟨q, hq, htag, hblock⟩ : ∃ q, (s.call op l)._operations = q :: l ∧ q.tag = op.tag ∧
      (q = op ∨ q.block = none) := by
    by_cases hmode : op.mode.isSome
    · exact ⟨_, if_pos hmode, rfl, Or.inr rfl⟩
    · exact ⟨_, if_neg hmode, rfl, Or.inl rfl⟩
  have htags : (s.call op l)._operations.map Op.tag = s._operations.map Op.tag := by
    rw [hq, hops, List.map_cons, List.map_cons, htag]
  have hall : ∀ o ∈ (s.call op l)._operations ++ ops, ∃ o' ∈ s._operations ++ ops,
      o.tag = o'.tag := by
    intro o ho
    rw [hq, List.cons_append, List.mem_cons] at ho
    rcases ho with rfl | ho
    · exact ⟨op, by simp [hops], htag⟩
    · exact ⟨o, by simpa [hops] using Or.inr (List.mem_append.mp ho), rfl⟩
  refine ⟨?_, htags, rfl, rfl, rfl, rfl, Or.inr ⟨op, rfl, rfl, by rw [hops]; rfl⟩⟩
  constructor
  · rw [List.map_append, indices_congr htags, ← List.map_append]
    exact h.ascending
  · intro o ho
    obtain ⟨o', ho', htag'⟩ := hall o ho
    rw [tag_index htag']
    exact h.numbered o' ho'
  · exact h.queued
  · exact h.queued_numbered
  · exact h.behind
  · exact h.before_disk
  · intro o ho
    obtain ⟨o', ho', htag'⟩ := hall o ho
    rw [newest_congr htag']
    exact h.known o' ho'
  · intro o ho
    obtain rfl : op = o := Option.some.inj ho
    exact ⟨List.getLast?_concat, hbelow, q, l, hq, htag⟩
  · intro o ho hin
    rw [hq, List.mem_cons] at ho
    rcases ho with rfl | ho
    · rcases hblock with rfl | hblock
      · exact hcarries
      · rcases hin with hin | hin
        · have hlt := hbelow _ hin
          rw [tag_index htag] at hlt
          exact absurd hlt (lt_irrefl _)
        · rw [hblock] at hin
          cases hin
    · exact h.in_memory o (by simp [hops, ho]) hin
  · exact h.on_the_way
  · intro o ho
    rcases List.mem_append.mp ho with ho | ho
    · exact h.sent o ho
    · rw [List.mem_singleton.mp ho]
      exact hcarries
  · intro t ht o ho
    obtain ⟨o', ho', htag'⟩ := hall o ho
    exact (h.held t ht o' ho').congr htag'

theorem Kept.get (h : Kept env s ops) :
    Kept env (get s._queue s) ops ∧ Took s (get s._queue s) := by
  rcases get_cases s._queue s with ⟨-, hget⟩ | ⟨before, i, rest, op, l, hsplit, hops, -, -, hget⟩
  · rw [hget]
    exact ⟨(h.shorter (List.nil_sublist _)).idle rfl, rfl, rfl, rfl, rfl, rfl, Or.inl ⟨rfl, rfl⟩⟩
  · have hsub : rest.Sublist s._queue := by
      rw [hsplit]
      exact (List.sublist_cons_self i rest).trans (List.sublist_append_right before _)
    rw [hget]
    split_ifs with hindex
    · have hqueued := h.queued
      rw [hsplit, List.pairwise_append, List.pairwise_cons] at hqueued
      have hcarries : Carries env s.pushed op :=
        h.in_memory op (by simp [hops]) (Or.inl (by simp [hsplit, hindex]))
      obtain ⟨hkept, htook⟩ := (h.shorter hsub).call hops hcarries
        fun j hj => hindex ▸ hqueued.2.1.1 j hj
      exact ⟨hkept, htook.tags, htook.waiting, htook.reentered, htook.pushed, htook.done,
        htook.sent⟩
    · exact ⟨(h.shorter hsub).idle rfl, rfl, rfl, rfl, rfl, rfl, Or.inl ⟨rfl, rfl⟩⟩

theorem Kept.turn [Inhabited S] (h : Kept env s ops) (hs : turn env s = some s') :
    Kept env s' ops ∧ Took s s' ∧ s.executing = none := by
  unfold Async.turn at hs
  split at hs
  · rename_i hloop
    have hidle : s.executing = none := by rw [executing, hloop]
    rw [← Option.some.inj hs]
    split_ifs with hreload
    · obtain ⟨hkept, halike⟩ := h.load_operations hidle
      obtain ⟨hkept', htook⟩ := hkept.get
      refine ⟨hkept', ⟨htook.tags.trans halike.tags, htook.waiting.trans halike.waiting,
        htook.reentered.trans halike.reentered, htook.pushed.trans halike.pushed,
        htook.done.trans halike.done, ?_⟩, hidle⟩
      rw [← halike.sent, ← List.head?_map, ← halike.tags, List.head?_map]
      exact htook.sent
    · exact ⟨h.get.1, h.get.2, hidle⟩
  · rename_i hloop
    have hidle : s.executing = none := by rw [executing, hloop]
    split_ifs at hs
    rw [← Option.some.inj hs]
    exact ⟨h.get.1, h.get.2, hidle⟩
  · cases hs

theorem Kept.processed (h : Kept env s ops) (hexecuting : s.executing = some op) :
    Kept env (s.processed op) ops ∧
      ∃ o, s._operations = o :: (s.processed op)._operations ∧ o.tag = op.tag := by
  obtain ⟨hlast, hlt, o, l, hops, htag⟩ := h.head op hexecuting
  have hsplit : s._operations = [] ++ o :: l := hops
  have hrest : (s.processed op)._operations = l := by
    have herased := h.erased hsplit
    rw [List.nil_append] at herased
    rw [← herased]
    simp only [Async.processed, Async.erase, fs, tag_index htag]
  have hsub : ∀ q ∈ l ++ ops, q ∈ s._operations ++ ops := by
    intro q hq
    rw [hops, List.cons_append, List.mem_cons]
    exact Or.inr hq
  refine ⟨?_, o, by rw [hrest, hops], htag⟩
  constructor
  · rw [hrest]
    have hascending := h.ascending
    rw [hops, List.cons_append, List.map_cons, List.pairwise_cons] at hascending
    exact hascending.2
  · rw [hrest]
    exact fun q hq => h.numbered q (hsub q hq)
  · exact h.queued
  · exact h.queued_numbered
  · exact h.behind
  · exact h.before_disk
  · rw [hrest]
    exact fun q hq => h.known q (hsub q hq)
  · intro q hq
    cases hq
  · rw [hrest]
    exact fun q hq hin => h.in_memory q (by simp [hops, hq]) hin
  · exact h.on_the_way
  · exact h.sent
  · rw [hrest]
    intro t' ht' q hq
    obtain ⟨t, ht, rfl⟩ := Option.map_eq_some_iff.mp ht'
    refine (h.held t ht q (hsub q hq)).removed ?_
    rw [← tag_index htag]
    exact (h.apart hsplit q (by simpa using hq)).symm

theorem Kept.again [Inhabited S] (h : Kept env s ops) (hexecuting : s.executing = some op)
    {l : Op A B R S} (hload : s._load_op env op.index true = some l) :
    Kept env { s with
      loop := .calling { l with address := op.address, mode := op.mode, pushes := op.pushes }
      sent := s.sent ++ [{ l with address := op.address, mode := op.mode, pushes := op.pushes }] }
        ops ∧ l.index = op.index := by
  obtain ⟨hlast, hlt, o, rest, hops, htag⟩ := h.head op hexecuting
  have hindex : l.index = op.index := by
    obtain ⟨f, -, rfl⟩ := Option.map_eq_some_iff.mp hload
    rfl
  obtain ⟨t, ht⟩ : ∃ t, s._journal_dir = some t := by
    cases hj : s._journal_dir with
    | some t => exact ⟨t, rfl⟩
    | none => simp [_load_op, hj] at hload
  have hheld := (h.held t ht o (by simp [hops])).congr htag.symm
  obtain ⟨⟨p, hp, -, -, hsignature, hblock⟩, -, hnewest⟩ := loaded_carries ht hheld hload
  obtain ⟨p', hp', haddress, hmode, -⟩ := h.sent op (List.mem_of_getLast? hlast)
  rw [hnewest] at hp
  obtain rfl : p' = p := Option.some.inj (hp'.symm.trans hp)
  refine ⟨{ h with head := ?_, sent := ?_ }, hindex⟩
  · intro q hq
    obtain rfl := Option.some.inj hq
    refine ⟨List.getLast?_concat, ?_, o, rest, hops, ?_⟩
    · simpa only [hindex] using hlt
    · rw [htag, Op.tag, Op.tag, hindex]
  · intro q hq
    rcases List.mem_append.mp hq with hq | hq
    · exact h.sent q hq
    · rw [List.mem_singleton.mp hq]
      exact ⟨p', hp', haddress, hmode, hsignature, hblock⟩

/-! ## Each step -/

/-- What holds in each state. -/
structure Steady (env : Blocks A B D R S) (s : Async A B R S) : Prop where
  kept : Kept env s s.later
  quiet : s.waiting = none → s._reentered_ops = []

theorem numbered_carries (s : Async A B R S) (op : Op A B R S) :
    Carries env (s.pushed ++ [s.numbered op]) (s.numbered op) := by
  refine ⟨s.numbered op, ?_, rfl, rfl, rfl, rfl⟩
  simp [Op.newest, numbered]

/-- The operation of a push, or the one that it was squashed with. -/
structure Enters (s s' : Async A B R S) (op : Op A B R S) : Prop extends Still s s' where
  tags : s'.pending.map Op.tag =
    s.pending.map Op.tag ++ [(s._next_index + 1, op.address, op.pushes)]

theorem Steady.enqueue (h : Steady env s) (hcarries : Carries env s.pushed op)
    (hs : enqueue env op s = some s') : Steady env s' ∧ Enters s s' op := by
  have hwritten := h.kept.written hcarries
  rcases enqueue_cases hs with ⟨hw, -, rfl⟩ | ⟨hw, hq⟩ | ⟨hw, -, rfl⟩
  · have hlater : later { written op s with
        _reentered_ops := s._reentered_ops ++ [{ op with index := s._next_index + 1 }] } =
          s.later ++ [{ op with index := s._next_index + 1 }] := by
      simp only [later, List.append_assoc]
      rfl
    refine ⟨⟨?_, ?_⟩, ⟨rfl, rfl, rfl, rfl⟩, ?_⟩
    · rw [hlater]
      exact hwritten.congr rfl rfl rfl rfl rfl rfl rfl rfl
    · intro hnone
      have hnone' : s.waiting = none := hnone
      rw [hnone'] at hw
      cases hw
    · rw [pending_eq, hlater, pending_eq, ← List.append_assoc, List.map_append]
      rfl
  · have hnil : s.later = [] := by rw [later, hw, h.quiet hw]; rfl
    rw [hnil, List.nil_append] at hwritten
    have hqueued := queued hq hwritten.below
    have hlater : s'.later = [] := by
      rw [hqueued.rest]
      exact hnil
    have hstill := hqueued.still
    refine ⟨⟨hlater ▸ hwritten.queue hqueued, ?_⟩,
      { hstill with }, ?_⟩
    · intro _
      rw [hqueued.rest]
      exact h.quiet hw
    · rw [pending_eq, hlater, pending_eq, hnil, List.append_nil, List.append_nil, hqueued.tags]
      rfl
  · have hnil : s.later = [] := by rw [later, hw, h.quiet hw]; rfl
    have hlater : later { written op s with
        waiting := some { op with index := s._next_index + 1 } } =
          [{ op with index := s._next_index + 1 }] := by
      change _ :: s._reentered_ops = _
      rw [h.quiet hw]
    refine ⟨⟨?_, ?_⟩, ⟨rfl, rfl, rfl, rfl⟩, ?_⟩
    · rw [hnil] at hwritten
      rw [hlater]
      exact hwritten.congr rfl rfl rfl rfl rfl rfl rfl rfl
    · intro hnone
      cases hnone
    · rw [pending_eq, hlater, pending_eq, hnil, List.append_nil, List.map_append]
      rfl

/-- What a push changes, at the place of `cop` or at the end. -/
structure Pushes [DecidableEq A] (env : Blocks A B D R S) (s s' : Async A B R S) (op : Op A B R S) :
    Prop where
  pushed : s'.pushed = s.pushed ++ [s.numbered op]
  sent : s'.sent = s.sent
  done : s'.done = s.done
  loop : s'.loop = s.loop
  tags : squash env s op = none ∧ s'.pending.map Op.tag = s.pending.map Op.tag ++
      [(s._next_index + 1, op.address, [s.pushed.length])] ∨
    ∃ cop order before after, squash env s op = some (cop, order) ∧ cop.address = op.address ∧
      s._operations = before ++ cop :: after ∧ before ≠ [] ∧
        (order.first = true ∧ s'.pending.map Op.tag = before.map Op.tag ++
            (cop.index, op.address, cop.pushes ++ [s.pushed.length]) ::
              (after ++ s.later).map Op.tag ∨
          order.first = false ∧ s'.pending.map Op.tag = (before ++ (after ++ s.later)).map Op.tag ++
            [(s._next_index + 1, op.address, cop.pushes ++ [s.pushed.length])])

theorem squash_split [DecidableEq A] {order : Squash}
    (hsquash : squash env s op = some (cop, order)) :
    cop.address = op.address ∧ ∃ before after, s._operations = before ++ cop :: after ∧
      before ≠ [] := by
  obtain ⟨current, rest, hops, hcop, hne, haddress, -⟩ := squash_spec hsquash
  obtain ⟨before, after, hsplit⟩ := List.append_of_mem hcop
  refine ⟨haddress, before, after, hsplit, ?_⟩
  rintro rfl
  rw [hops, List.nil_append, List.cons.injEq] at hsplit
  exact hne (congrArg Op.index hsplit.1.symm)

theorem Steady.push [DecidableEq A] (h : Steady env s) (hs : push env op s = some s') :
    Steady env s' ∧ Pushes env s s' op := by
  have hpushing : Steady env { s with pushed := s.pushed ++ [s.numbered op] } :=
    ⟨h.kept.pushing _, h.quiet⟩
  have hcarries : Carries env (s.pushed ++ [s.numbered op]) (s.numbered op) := numbered_carries s op
  rcases push_cases hs with ⟨hsquash, hs⟩ | ⟨cop, order, hsquash, horder, rfl⟩ |
    ⟨cop, order, hsquash, horder, hs⟩
  · obtain ⟨hsteady, henters⟩ := hpushing.enqueue hcarries hs
    exact ⟨hsteady, henters.pushed, henters.sent, henters.done, henters.loop,
      Or.inl ⟨hsquash, henters.tags⟩⟩
  · obtain ⟨haddress, before, after, hsplit, hbefore⟩ := squash_split hsquash
    have hmerged : Carries env (s.pushed ++ [s.numbered op])
        (merged_first env cop (s.numbered op)) := by
      refine hcarries.congr ?_ haddress rfl rfl resealed_data
      simp [Op.newest, merged_first, numbered]
    refine ⟨⟨hpushing.kept.overwrite hsplit hbefore hmerged, h.quiet⟩, rfl, rfl, rfl, rfl,
      Or.inr ⟨cop, order, before, after, hsquash, haddress, hsplit, hbefore,
        Or.inl ⟨horder, ?_⟩⟩⟩
    have haddress' : cop.address = op.address := haddress
    rw [pending_eq, hpushing.kept.overwritten hsplit, List.append_assoc, List.map_append,
      List.cons_append, List.map_cons, ← haddress']
    rfl
  · obtain ⟨haddress, before, after, hsplit, hbefore⟩ := squash_split hsquash
    have hmerged : Carries env (s.pushed ++ [s.numbered op])
        (merged_last env cop (s.numbered op)) := by
      refine hcarries.congr ?_ rfl rfl rfl resealed_data
      simp [Op.newest, merged_last, numbered]
    have herase : Steady env (Async.erase cop { s with
        pushed := s.pushed ++ [s.numbered op] }) :=
      ⟨hpushing.kept.erase hsplit hbefore, h.quiet⟩
    obtain ⟨hsteady, henters⟩ := herase.enqueue hmerged hs
    refine ⟨hsteady, henters.pushed, henters.sent, henters.done, henters.loop,
      Or.inr ⟨cop, order, before, after, hsquash, haddress, hsplit, hbefore,
        Or.inr ⟨horder, ?_⟩⟩⟩
    rw [henters.tags, pending_eq, hpushing.kept.erased hsplit, List.append_assoc]
    rfl

variable [Inhabited S]

theorem Steady.step_room [DecidableEq A] (h : Steady env s) (hs : step env s .room = some s') :
    Steady env s' ∧ Still s s' ∧ s'.pending.map Op.tag = s.pending.map Op.tag := by
  simp only [Async.step, Option.bind_eq_some_iff, Option.map_eq_some_iff] at hs
  obtain ⟨op, hw, s₁, hq, rfl⟩ := hs
  have hkept := h.kept
  have hlater : s.later = op :: s._reentered_ops := by rw [later, hw]; rfl
  rw [hlater] at hkept
  have hqueued := queued hq hkept.below
  have hstill := hqueued.still
  have hreentered : s₁._reentered_ops = s._reentered_ops := by rw [hqueued.rest]
  obtain ⟨hflush, hstill', htags, hquiet⟩ := (hkept.queue hqueued).flush
  rw [← hreentered] at hflush hstill' htags hquiet
  refine ⟨⟨hflush, hquiet⟩, ⟨hstill'.pushed.trans hstill.pushed, hstill'.sent.trans hstill.sent,
    hstill'.done.trans hstill.done, hstill'.loop.trans hstill.loop⟩, ?_⟩
  rw [htags, pending_eq, hlater, List.map_append, hqueued.tags, hreentered]
  simp

/-- What a step does of the operations that are pending and of those that were sent: one is pushed,
nothing moves, the first one is sent, or it is over. -/
inductive Change [DecidableEq A] (env : Blocks A B D R S) (s s' : Async A B R S) :
    Action A B R S → Prop
  | store {block : B} {mode : StoreMode} {resolver : Option R}
      (h : Pushes env s s' (stored env block mode resolver)) :
      Change env s s' (.store block mode resolver)
  | remove {address : A} {rs : S} (h : Pushes env s s' (removal address rs)) :
      Change env s s' (.remove address rs)
  | still {a : Action A B R S} (tags : s'.pending.map Op.tag = s.pending.map Op.tag)
      (pushed : s'.pushed = s.pushed) (sent : s'.sent = s.sent) (done : s'.done = s.done)
      (executing : s'.executing = s.executing) : Change env s s' a
  | sends {a : Action A B R S} (op : Op A B R S)
      (tags : s'.pending.map Op.tag = s.pending.map Op.tag) (pushed : s'.pushed = s.pushed)
      (sent : s'.sent = s.sent ++ [op]) (done : s'.done = s.done)
      (executing : s'.executing = some op)
      (first : (s.pending.map Op.tag).head? = some op.tag)
      (alone : ∀ o, s.executing = some o → o.tag = op.tag) : Change env s s' a
  | ends {a : Action A B R S} (op : Op A B R S) (tags : s.pending.map Op.tag =
        op.tag :: s'.pending.map Op.tag)
      (pushed : s'.pushed = s.pushed) (sent : s'.sent = s.sent) (last : s.sent.getLast? = some op)
      (executing : s.executing = some op) (idle : s'.executing = none)
      (done : s'.done = s.done ++ [op] ∨ s._load_op env op.index = none) : Change env s s' a

theorem Steady.ends [DecidableEq A] (h : Steady env s) (hexecuting : s.executing = some op)
    (done : List (Op A B R S)) (a : Action A B R S)
    (hdone : done = s.done ++ [op] ∨ s._load_op env op.index = none) :
    Steady env ({ s with done }.processed op) ∧ Change env s ({ s with done }.processed op) a := by
  have hkept : Kept env { s with done } s.later := h.kept.congr rfl rfl rfl rfl rfl rfl rfl rfl
  obtain ⟨hkept', o, hops, htag⟩ := hkept.processed hexecuting
  have hops' : s._operations = o :: ({ s with done }.processed op)._operations := hops
  refine ⟨⟨hkept', h.quiet⟩, .ends op ?_ rfl rfl (h.kept.head op hexecuting).1 hexecuting rfl hdone⟩
  rw [pending_eq, pending_eq, ← htag]
  exact congrArg (fun l => (l ++ s.later).map Op.tag) hops'

theorem Steady.step [DecidableEq A] (h : Steady env s) {a : Action A B R S}
    (hs : step env s a = some s') :
    Steady env s' ∧ Change env s s' a := by
  cases a with
  | store block mode resolver =>
    have hpush : Async.push env (stored env block mode resolver) s = some s' := hs
    obtain ⟨hsteady, hpushes⟩ := h.push hpush
    exact ⟨hsteady, .store hpushes⟩
  | remove address rs =>
    have hpush : Async.push env (removal address rs) s = some s' := hs
    obtain ⟨hsteady, hpushes⟩ := h.push hpush
    exact ⟨hsteady, .remove hpushes⟩
  | room =>
    obtain ⟨hsteady, hstill, htags⟩ := h.step_room hs
    exact ⟨hsteady, .still htags hstill.pushed hstill.sent hstill.done hstill.executing⟩
  | turn =>
    obtain ⟨hkept, htook, hidle⟩ := h.kept.turn hs
    have htags : s'.pending.map Op.tag = s.pending.map Op.tag := by
      rw [pending_eq, pending_eq, List.map_append, List.map_append, htook.tags, htook.later]
    refine ⟨⟨htook.later ▸ hkept, htook.waiting ▸ htook.reentered ▸ h.quiet⟩, ?_⟩
    rcases htook.sent with ⟨hsent, hnone⟩ | ⟨op, hsent, hexecuting, hfirst⟩
    · exact .still htags htook.pushed hsent htook.done (hnone.trans hidle.symm)
    · refine .sends op htags htook.pushed hsent htook.done hexecuting ?_ ?_
      · rw [pending_eq, List.map_append, List.head?_append, List.head?_map, hfirst]
        rfl
      · intro o ho
        exact absurd (ho.symm.trans hidle) (by simp)
  | answer ok =>
    simp only [Async.step] at hs
    split at hs
    · rename_i op hloop
      have hexecuting : s.executing = some op := by rw [executing, hloop]
      rw [← Option.some.inj hs]
      cases ok with
      | true => exact h.ends hexecuting _ _ (Or.inl rfl)
      | false =>
        obtain ⟨hlast, hlt, hhead⟩ := h.kept.head op hexecuting
        have hsleeping : executing { s with loop := .sleeping op } = s.executing := hexecuting.symm
        refine ⟨⟨{ h.kept with head := ?_ }, h.quiet⟩, .still rfl rfl rfl rfl hsleeping⟩
        intro o ho
        exact h.kept.head o (hsleeping ▸ ho)
    · cases hs
  | retry =>
    simp only [Async.step] at hs
    split at hs
    · rename_i op hloop
      have hexecuting : s.executing = some op := by rw [executing, hloop]
      rw [← Option.some.inj hs, Async.retry]
      cases hload : s._load_op env op.index with
      | none => exact h.ends hexecuting s.done _ (Or.inr hload)
      | some l =>
        obtain ⟨hkept, hindex⟩ := h.kept.again hexecuting hload
        obtain ⟨-, -, o, rest, hops, htag⟩ := h.kept.head op hexecuting
        have htag' : Op.tag { l with
            address := op.address, mode := op.mode, pushes := op.pushes } = op.tag := by
          rw [Op.tag, Op.tag, hindex]
        refine ⟨⟨hkept, h.quiet⟩, .sends _ rfl rfl rfl rfl rfl ?_ ?_⟩
        · rw [pending_eq, hops, List.cons_append, List.map_cons, List.head?_cons, htag, htag']
        · intro o' ho'
          obtain rfl : op = o' := Option.some.inj (hexecuting.symm.trans ho')
          exact htag'.symm
    · cases hs

/-! ## The start -/

/-- Operations are numbered in order. -/
def Labelled (ops : List (Op A B R S)) : Prop :=
  ∀ (k : Nat) (op : Op A B R S), ops[k]? = some op → op.pushes = [k]

omit [Inhabited S] in
theorem Labelled.carries (h : Labelled ops) (hop : op ∈ ops) : Carries env ops op := by
  obtain ⟨k, hk⟩ := List.mem_iff_getElem?.mp hop
  refine ⟨op, ?_, rfl, rfl, rfl, rfl⟩
  rw [Op.newest, h k op hk]
  exact hk

/-- The operations of the files. -/
def recorded (t : Table Int (File A B R S)) (ids : List Int) : List (Int × A × List Nat) :=
  ids.filterMap fun id => (find t id).join.map fun f => (id, f.address, f.pushes)

theorem Kept.restore_one (h : Kept env s []) {f : Op A B R S} {id : Int}
    (hj : s._journal_dir = some t) (hf : find t id = some (some f))
    (hcarries : Carries env s.pushed f) (hfull : s._first_disk_index.isSome → s.Full)
    (hbelow : ∀ o ∈ s._operations, o.index < id) (hqueue : ∀ i ∈ s._queue, i < id)
    (hs' : s' = if s.Full then
      { s with
        _next_index := max id s._next_index
        _first_disk_index := some
          (s._first_disk_index.getD (f.loaded env id (¬s.Full)).index) }.emplace_op env
          { f.loaded env id (¬s.Full) with block := none }
    else
      ({ s with _next_index := max id s._next_index }.put_index
        (f.loaded env id (¬s.Full)).index).emplace_op env (f.loaded env id (¬s.Full))) :
    Kept env s' [] ∧ (s'._first_disk_index.isSome → s'.Full) ∧
      Queued { s with _next_index := max id s._next_index } s' (f.loaded env id true) := by
  have hcoming : Kept env { s with _next_index := max id s._next_index }
      ([] ++ [f.loaded env id true]) := by
    have hnew : Carries env s.pushed (f.loaded env id true) :=
      hcarries.congr rfl rfl rfl rfl (sealed_data f.block)
    refine h.coming (le_max_right _ _) ?_ hqueue (le_max_left _ _) hnew rfl ?_
    · exact fun o ho => hbelow o (by simpa using ho)
    · intro t' ht'
      obtain rfl : t = t' := Option.some.inj (hj.symm.trans ht')
      exact ⟨⟨f, hf, rfl, rfl, hcarries⟩, h.held t hj⟩
  have hlast : ∀ o : Op A B R S, o.index = id → emplace o s._operations = s._operations ++ [o] :=
    fun o ho => emplace_last fun o' ho' => ho ▸ hbelow o' ho'
  have hqueued : (s'._first_disk_index.isSome → s'.Full) ∧
      Queued { s with _next_index := max id s._next_index } s' (f.loaded env id true) := by
    split_ifs at hs' with hroom
    · simp only [hroom, not_true_eq_false, decide_false] at hs'
      rw [hs']
      refine ⟨fun _ => hroom, rfl, _, hlast _ rfl, rfl, Or.inr ⟨rfl, rfl, ?_⟩⟩
      cases hfirst : s._first_disk_index with
      | none => exact Or.inr (by simp [emplace_op, Op.loaded])
      | some f => exact Or.inl (by simp [emplace_op])
    · have hnone : s._first_disk_index = none := by
        by_contra hne
        exact hroom (hfull (Option.isSome_iff_ne_none.mpr hne))
      simp only [hroom, not_false_eq_true, decide_true] at hs'
      rw [hs']
      refine ⟨fun hsome => ?_, rfl, _, hlast _ rfl, rfl,
        Or.inl ⟨rfl, hnone, hnone, rfl, rfl, rfl⟩⟩
      exact absurd hnone (Option.isSome_iff_ne_none.mp hsome)
  exact ⟨Kept.queue hcoming hqueued.2, hqueued⟩

theorem restored (env : Blocks A B D R S) {ids : List Int} (hj : s._journal_dir = some t)
    (hids : ids.Pairwise (· < ·)) (hbelow : ∀ o ∈ s._operations, ∀ id ∈ ids, o.index < id) :
    (restore env ids s).later = s.later ∧
      (restore env ids s)._operations.map Op.tag = s._operations.map Op.tag ++ recorded t ids ∧
      (restore env ids s)._next_index =
        (recorded t ids).foldl (fun n tag => max tag.1 n) s._next_index := by
  induction ids generalizing s with
  | nil => simp [Async.restore, recorded]
  | cons id ids ih =>
    rw [List.pairwise_cons] at hids
    have hload : s._load_op env id (¬s.Full) =
        (find t id).join.map fun f => f.loaded env id (¬s.Full) := by
      rw [_load_op, hj, Option.bind_some]
    rw [Async.restore, hload, recorded, List.filterMap_cons]
    cases hf : (find t id).join with
    | none =>
      exact ih hj hids.2 fun o ho i hi => hbelow o ho i (by simp [hi])
    | some f =>
      rw [Option.map_some, Option.map_some]
      dsimp only
      generalize hs' : (if Full _ then emplace_op env _ _ else _) = s'
      have hone : s'._journal_dir = some t ∧ s'.later = s.later ∧
          s'._next_index = max id s._next_index ∧
          ∃ o, s'._operations = s._operations ++ [o] ∧ o.tag = (id, f.address, f.pushes) := by
        have hlast : ∀ o : Op A B R S, o.index = id →
            emplace o s._operations = s._operations ++ [o] :=
          fun o ho => emplace_last fun o' ho' => ho ▸ hbelow o' ho' id (by simp)
        have htag : ∀ signature, (f.loaded env id signature).tag = (id, f.address, f.pushes) := by
          intro signature
          cases signature <;> rfl
        have hindex : ∀ signature, (f.loaded env id signature).index = id := fun signature =>
          congrArg Prod.fst (htag signature)
        rw [← hs']
        split_ifs
        · exact ⟨hj, rfl, rfl, _, hlast _ (hindex _), htag _⟩
        · exact ⟨hj, rfl, rfl, _, hlast _ (hindex _), htag _⟩
      obtain ⟨hj', hlater, hnext, o, hoperations, htag⟩ := hone
      have hbelow' : ∀ q ∈ s'._operations, ∀ i ∈ ids, q.index < i := by
        intro q hq i hi
        rw [hoperations, List.mem_append, List.mem_singleton] at hq
        rcases hq with hq | rfl
        · exact hbelow q hq i (by simp [hi])
        · have hindex : q.index = id := congrArg Prod.fst htag
          rw [hindex]
          exact hids.1 i hi
      obtain ⟨hlater', htags, hnext'⟩ := ih hj' hids.2 hbelow'
      refine ⟨hlater'.trans hlater, ?_, ?_⟩
      · rw [htags, hoperations, List.map_append, List.map_singleton, htag, List.append_assoc]
        rfl
      · rw [hnext', hnext]
        rfl

theorem Kept.restore {ids : List Int} (h : Kept env s []) (hj : s._journal_dir = some t)
    (hcarries : ∀ id ∈ ids, ∀ f, find t id = some (some f) → Carries env s.pushed f)
    (hfull : s._first_disk_index.isSome → s.Full) (hids : ids.Pairwise (· < ·))
    (hbelow : ∀ o ∈ s._operations, ∀ id ∈ ids, o.index < id)
    (hqueue : ∀ i ∈ s._queue, ∀ id ∈ ids, i < id) :
    Kept env (restore env ids s) [] ∧ Still s (restore env ids s) := by
  induction ids generalizing s with
  | nil => exact ⟨h, rfl, rfl, rfl, rfl⟩
  | cons id ids ih =>
    rw [List.pairwise_cons] at hids
    rw [Async.restore]
    have hload : s._load_op env id (¬s.Full) =
        (find t id).join.map fun f => f.loaded env id (¬s.Full) := by
      rw [_load_op, hj, Option.bind_some]
    rw [hload]
    cases hf : (find t id).join with
    | none =>
      exact ih h hj (fun i hi => hcarries i (by simp [hi])) hfull hids.2
        (fun o ho i hi => hbelow o ho i (by simp [hi]))
        fun j hj i hi => hqueue j hj i (by simp [hi])
    | some f =>
      have hf' : find t id = some (some f) := by
        cases hfile : find t id with
        | none => simp [hfile] at hf
        | some file => rw [hfile, Option.join_some] at hf; rw [hf]
      rw [Option.map_some]
      dsimp only
      generalize hs' : (if Full _ then emplace_op env _ _ else _) = s'
      obtain ⟨hkept, hfull', hqueued⟩ := h.restore_one hj hf' (hcarries id (by simp) f hf') hfull
        (fun o ho => hbelow o ho id (by simp)) (fun i hi => hqueue i hi id (by simp))
        hs'.symm
      have hstill := hqueued.still
      have hj' : s'._journal_dir = some t := by rw [hqueued.rest]; exact hj
      obtain ⟨o, hoperations, htag, hplace⟩ := hqueued.place
      have hqueue' : ∀ i ∈ s'._queue, i ∈ s._queue ∨ i = id := by
        intro i hi
        rcases hplace with ⟨hq, -⟩ | ⟨hq, -⟩
        · rw [hq, List.mem_append, List.mem_singleton] at hi
          exact hi
        · exact Or.inl (hq ▸ hi)
      have hcarries' : ∀ i ∈ ids, ∀ g, find t i = some (some g) → Carries env s'.pushed g := by
        intro i hi g hg
        rw [hstill.pushed]
        exact hcarries i (by simp [hi]) g hg
      have hbelow' : ∀ q ∈ s'._operations, ∀ i ∈ ids, q.index < i := by
        intro q hq i hi
        rw [hoperations, List.mem_append, List.mem_singleton] at hq
        rcases hq with hq | rfl
        · exact hbelow q hq i (by simp [hi])
        · rw [tag_index htag]
          exact hids.1 i hi
      have hlater : ∀ j ∈ s'._queue, ∀ i ∈ ids, j < i := by
        intro j hj i hi
        rcases hqueue' j hj with hj | rfl
        · exact hqueue j hj i (by simp [hi])
        · exact hids.1 i hi
      obtain ⟨hkept', hstill'⟩ := ih hkept hj' hcarries' hfull' hids.2 hbelow' hlater
      exact ⟨hkept', hstill'.pushed.trans hstill.pushed, hstill'.sent.trans hstill.sent,
        hstill'.done.trans hstill.done, hstill'.loop.trans hstill.loop⟩

/-- The operations of a journal, in order. -/
def records (t : Table Int (File A B R S)) : List (Op A B R S) :=
  (entries t).filterMap fun id => (find t id).join

end Async

end memo.consensus
