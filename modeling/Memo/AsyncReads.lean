-- What a fetch through the queue gives to the one who stored or removed: the last push on the
-- address, as long as it can be found where it is.
import Memo.AsyncJournal
import Memo.AsyncOrder

open stores runs

namespace memo.consensus

variable {A B D R S : Type}

/-! ## A fetch -/

/-- What a fetch gives. `unchanged` stands for the null pointer that says that the caller's version
is the one of the block, and `backend` for the answer of the backend. -/
inductive Fetched (B : Type) where
  | block (b : B)
  | unchanged
  | missing
  | failed
  | backend
deriving DecidableEq

namespace Async

variable (env : Blocks A B D R S)

/-- The entry of `_operations` on an address that has the highest index. -/
def newest_entry [DecidableEq A] (s : Async A B R S) (address : A) : Option (Op A B R S) :=
  athena.paxos.max_element (fun e1 e2 => e1.index < e2.index)
    (s._operations.filter fun op => op.address = address)

/-- `_fetch`, with `_fetch_cache`; a fetch of several addresses does it for each of them. `version`
is that of a mutable block. -/
def _fetch [DecidableEq A] [Inhabited S] (version : B → Option Int) (s : Async A B R S)
    (address : A) (local_version : Option Int) : Fetched B :=
  match s.newest_entry address with
  | none => .backend
  | some op =>
    match op.block with
    | some b =>
      if local_version.isSome ∧ version b = local_version then .unchanged else .block b
    | none =>
      match s._load_op env op.index with
      | none => .failed
      | some l =>
        match l.block with
        | some b => .block b
        | none => .missing

/-- A fetch gives what was asked for by the push number `k`: the data that was stored, or that the
block is missing. The backend answers once it has executed the push. -/
def Gives (version : B → Option Int) (s : Async A B R S) (k : Nat) (p : Op A B R S)
    (local_version : Option Int) : Fetched B → Prop
  | .block b => p.block.map env.data = some (env.data b)
  | .unchanged => ∃ b, p.block.map env.data = some (env.data b) ∧ version b = local_version
  | .missing => p.block = none
  | .failed => False
  | .backend => ∃ op ∈ s.done, op.address = p.address ∧ op.newest = k

variable {env} {s s' : Async A B R S} {op : Op A B R S} {t : Table Int (File A B R S)} {a : A}

/-! ## The entry that is found -/

theorem last_of_max {l : List Nat} {n : Nat} (h : l.Pairwise (· ≤ ·)) (hn : n ∈ l)
    (hmax : ∀ m ∈ l, m ≤ n) : l.getLast? = some n := by
  obtain ⟨m, hm⟩ : ∃ m, l.getLast? = some m := by
    cases hl : l.getLast? with
    | some m => exact ⟨m, rfl⟩
    | none =>
      rw [List.getLast?_eq_none_iff.mp hl] at hn
      cases hn
  obtain ⟨rest, rfl⟩ := List.getLast?_eq_some_iff.mp hm
  have hle := hmax m (by simp)
  rw [List.mem_append, List.mem_singleton] at hn
  rcases hn with hn | rfl
  · have hle' := (List.pairwise_append.mp h).2.2 n hn m (by simp)
    rw [hm, le_antisymm hle hle']
  · exact hm

variable {ops : List (Op A B R S)} {act : Action A B R S} {k : Nat}

theorem Labelled.newest (h : Labelled ops) (hk : ops[k]? = some op) : op.newest = k := by
  rw [Op.newest, h k op hk]
  rfl

theorem Labelled.last [DecidableEq A] (h : Labelled ops) (hk : ops[k]? = some op)
    (hmax : ∀ (k' : Nat) (p' : Op A B R S), ops[k']? = some p' → p'.address = op.address → k' ≤ k) :
    (newest_on op.address ops).getLast? = some k := by
  apply last_of_max h.ordered
  · exact mem_newest_on.mpr ⟨op, List.mem_of_getElem? hk, rfl, Labelled.newest h hk⟩
  · intro m hm
    obtain ⟨o, ho, haddress, rfl⟩ := mem_newest_on.mp hm
    obtain ⟨k', hk'⟩ := List.mem_iff_getElem?.mp ho
    rw [Labelled.newest h hk']
    exact hmax k' o hk' haddress

/-- An operation on the address that comes after an index. -/
def Followed (s : Async A B R S) (a : A) (i : Int) : Prop :=
  ∃ o ∈ s.pending, o.address = a ∧ i < o.index

/-- Without a journal an operation is found as long as its block is in memory. The operations whose
block is gone are followed by others, that are all there. -/
structure InMemory (s : Async A B R S) : Prop where
  journal : s._journal_dir = none
  alone : s._reentered_ops = []
  no_disk : s._first_disk_index = none
  whole : ∀ op ∈ s._operations, op.block.isSome ∨ s.Followed op.address op.index
  behind : ∀ op, s.executing = some op → s.Followed op.address op.index
  covered : ∀ op ∈ s.sent, ∃ o ∈ s.pending, o.address = op.address

/-- A push that overtakes another one. Without a journal, also a removal that is queued, what is
pushed while another push waits for room, and a turn of the loop when the first operation is the
last one on its address. -/
def Hides [DecidableEq A] [Inhabited S] (env : Blocks A B D R S) (s : Async A B R S) :
    Action A B R S → Prop
  | .store block mode resolver =>
    Overtakes env s (.store block mode resolver) ∨
      s._journal_dir = none ∧ s.waiting.isSome ∧ ∀ cop order,
        squash env s (stored env block mode resolver) = some (cop, order) → order.first = false
  | .remove _ _ => s._journal_dir = none ∧ (s.waiting.isSome ∨ ¬s.Full)
  | .room => s._journal_dir = none ∧ ∃ op ∈ s.waiting, op.block = none
  | .turn => s._journal_dir = none ∧ ∃ op ∈ s._operations.head?, ¬s.Followed op.address op.index
  | _ => False

theorem followed_iff {i : Int} :
    s.Followed a i ↔ ∃ tag ∈ s.pending.map Op.tag, tag.2.1 = a ∧ i < tag.1 := by
  simp [Followed, Op.tag]

theorem followed_congr (htags : s'.pending.map Op.tag = s.pending.map Op.tag) {i : Int} :
    s'.Followed a i ↔ s.Followed a i := by
  rw [followed_iff, followed_iff, htags]

theorem Pushes.followed [DecidableEq A] (h : Steady env s) (hp : Pushes env s s' op) {i : Int}
    (hf : s.Followed a i) : s'.Followed a i := by
  rw [followed_iff]
  rcases hp.tags with ⟨-, htags⟩ | ⟨cop, order, before, after, -, haddress, hsplit, -, htags⟩
  · obtain ⟨tag, htag, hrest⟩ := followed_iff.mp hf
    exact ⟨tag, by rw [htags]; exact List.mem_append_left _ htag, hrest⟩
  · obtain ⟨o, ho, hoa, hlt⟩ := hf
    rw [pending_eq, hsplit, List.append_assoc, List.cons_append, List.mem_append,
      List.mem_cons] at ho
    have hcop : cop.index ≤ s._next_index := h.kept.numbered cop (by simp [hsplit])
    rcases htags with ⟨-, htags⟩ | ⟨-, htags⟩
    · rw [htags]
      rcases ho with ho | rfl | ho
      · exact ⟨o.tag, by simp [List.mem_map_of_mem ho], hoa, hlt⟩
      · exact ⟨_, List.mem_append_right _ List.mem_cons_self, haddress ▸ hoa, hlt⟩
      · exact ⟨o.tag, List.mem_append_right _ (List.mem_cons_of_mem _ (List.mem_map_of_mem ho)),
          hoa, hlt⟩
    · rw [htags]
      rcases ho with ho | rfl | ho
      · refine ⟨o.tag, List.mem_append_left _ (List.mem_map_of_mem ?_), hoa, hlt⟩
        exact List.mem_append_left _ ho
      · refine ⟨_, List.mem_append_right _ (List.mem_singleton.mpr rfl), haddress ▸ hoa, ?_⟩
        dsimp only
        omega
      · refine ⟨o.tag, List.mem_append_left _ (List.mem_map_of_mem ?_), hoa, hlt⟩
        exact List.mem_append_right _ ho

theorem covered_iff : (∃ o ∈ s.pending, o.address = a) ↔ ∃ i, s.Followed a i := by
  constructor
  · rintro ⟨o, ho, haddress⟩
    exact ⟨o.index - 1, o, ho, haddress, by omega⟩
  · rintro ⟨i, o, ho, haddress, -⟩
    exact ⟨o, ho, haddress⟩

theorem mem_of_emplace {o : Op A B R S} (h : o ∈ emplace op ops) :
    o = op ∨ o ∈ ops := by
  induction ops with
  | nil => simpa [emplace] using h
  | cons q ops ih =>
    rw [emplace] at h
    split_ifs at h
    · simpa using h
    · exact Or.inr h
    · rcases List.mem_cons.mp h with rfl | h
      · exact Or.inr List.mem_cons_self
      · exact (ih h).imp_right (List.mem_cons_of_mem q)

theorem queue_whole (hq : queue env op s = some s') (hj : s._journal_dir = none)
    (hdisk : s._first_disk_index = none) :
    ¬s.Full ∧ s' = (s.put_index op.index).emplace_op env op := by
  rcases queue_cases hq with ⟨f, hf, -⟩ | ⟨-, -, hsome, -⟩ | ⟨-, hroom, rfl⟩
  · rw [hdisk] at hf
    cases hf
  · rw [hj] at hsome
    cases hsome
  · exact ⟨hroom, rfl⟩

theorem enqueue_whole (hs : enqueue env op s = some s') (hj : s._journal_dir = none)
    (hdisk : s._first_disk_index = none) (halone : s.waiting = none)
    (hblock : op.block.isSome ∨ s.Full) :
    s'._reentered_ops = s._reentered_ops ∧ s'._first_disk_index = none ∧
      ∀ o ∈ s'._operations, o.block.isSome ∨ o ∈ s._operations := by
  have hj' : (written op s)._journal_dir = none := by simp [written, fs, hj]
  rcases enqueue_cases hs with ⟨hw, -⟩ | ⟨-, hq⟩ | ⟨-, -, rfl⟩
  · rw [halone] at hw
    cases hw
  · obtain ⟨hroom, rfl⟩ := queue_whole hq hj' hdisk
    refine ⟨rfl, hdisk, fun o ho => ?_⟩
    rcases mem_of_emplace ho with rfl | ho
    · exact Or.inl (hblock.resolve_right hroom)
    · exact Or.inr ho
  · exact ⟨rfl, hdisk, fun o ho => Or.inr ho⟩

theorem InMemory.push_whole [DecidableEq A] (h : InMemory s) (hs : push env op s = some s')
    (hblock : op.block.isSome ∨ s.Full ∧ op.resolver = [])
    (halone : s.waiting = none ∨ ∃ cop order,
      squash env s op = some (cop, order) ∧ order.first = true) :
    s'._reentered_ops = [] ∧ s'._first_disk_index = none ∧
      ∀ o ∈ s'._operations, o.block.isSome ∨ o ∈ s._operations := by
  have hsame : squash env { s with pushed := s.pushed ++ [s.numbered op] } (s.numbered op) =
      squash env s op := rfl
  have hsealed : ∀ cop : Op A B R S, squash env s op ≠ none →
      (resealed env cop (s.numbered op)).isSome := by
    intro cop hsquash
    have hop : op.block.isSome := by
      rcases hblock with hblock | ⟨-, hnil⟩
      · exact hblock
      · exact absurd (squash_none hnil) hsquash
    simpa [resealed, numbered] using hop
  rcases push_cases hs with ⟨hsquash, hs⟩ | ⟨cop, order, hsquash, -, rfl⟩ |
    ⟨cop, order, hsquash, horder, hs⟩
  · rw [hsame] at hsquash
    have halone' : s.waiting = none := halone.resolve_right (by simp [hsquash])
    obtain ⟨hreentered, hdisk, hwhole⟩ :=
      enqueue_whole hs h.journal h.no_disk halone' (hblock.imp_right And.left)
    exact ⟨hreentered.trans h.alone, hdisk, hwhole⟩
  · rw [hsame] at hsquash
    refine ⟨h.alone, h.no_disk, fun o ho => ?_⟩
    obtain ⟨q, hq, rfl⟩ := List.mem_map.mp ho
    split_ifs
    · exact Or.inl (hsealed cop (by simp [hsquash]))
    · exact Or.inr hq
  · rw [hsame] at hsquash
    have halone' : s.waiting = none := by
      refine halone.resolve_right ?_
      rintro ⟨cop', order', hsome, hfirst⟩
      obtain ⟨rfl, rfl⟩ : cop = cop' ∧ order = order' := by simpa using hsquash.symm.trans hsome
      rw [horder] at hfirst
      cases hfirst
    obtain ⟨hreentered, hdisk, hwhole⟩ := enqueue_whole hs (by simp [Async.erase, fs, h.journal])
      (by simp [Async.erase, fs, h.no_disk]) halone' (Or.inl (hsealed cop (by simp [hsquash])))
    refine ⟨hreentered.trans h.alone, hdisk, fun o ho => ?_⟩
    exact (hwhole o ho).imp_right fun ho => (List.mem_filter.mp ho).1

theorem InMemory.push [DecidableEq A] (h : InMemory s) (hsteady : Steady env s)
    (hs : push env op s = some s') (hblock : op.block.isSome ∨ s.Full ∧ op.resolver = [])
    (halone : s.waiting = none ∨ ∃ cop order,
      squash env s op = some (cop, order) ∧ order.first = true) : InMemory s' := by
  have hp := (hsteady.push hs).2
  obtain ⟨hreentered, hdisk, hwhole⟩ := h.push_whole hs hblock halone
  refine ⟨by rw [push_journal hs, h.journal]; rfl, hreentered, hdisk, fun o ho => ?_, ?_, ?_⟩
  · rcases hwhole o ho with hsome | ho
    · exact Or.inl hsome
    · exact (h.whole o ho).imp_right (hp.followed hsteady)
  · intro o ho
    have hexecuting : s'.executing = s.executing := by rw [executing, hp.loop, executing]
    exact hp.followed hsteady (h.behind o (hexecuting ▸ ho))
  · intro o ho
    rw [hp.sent] at ho
    obtain ⟨i, hi⟩ := covered_iff.mp (h.covered o ho)
    exact covered_iff.mpr ⟨i, hp.followed hsteady hi⟩

theorem InMemory.ends (h : InMemory s) (hsteady : Steady env s) (hexecuting : s.executing = some op)
    (done : List (Op A B R S)) : InMemory ({ s with done }.processed op) := by
  have hkept : Kept env { s with done } s.later :=
    hsteady.kept.congr rfl rfl rfl rfl rfl rfl rfl rfl
  obtain ⟨-, o, hops, htag⟩ := hkept.processed hexecuting
  have hops' : s._operations = o :: ({ s with done }.processed op)._operations := hops
  have hpending : s.pending = o :: ({ s with done }.processed op).pending := by
    rw [pending_eq, pending_eq]
    exact congrArg (· ++ s.later) hops'
  have hfollowed : ∀ {a i}, op.index ≤ i → s.Followed a i →
      ({ s with done }.processed op).Followed a i := by
    rintro a i hle ⟨q, hq, hqa, hlt⟩
    rw [hpending, List.mem_cons] at hq
    rcases hq with rfl | hq
    · rw [tag_index htag] at hlt
      omega
    · exact ⟨q, hq, hqa, hlt⟩
  have hbehind := h.behind op hexecuting
  refine ⟨by simp [processed, fs, h.journal], h.alone, h.no_disk, fun q hq => ?_, ?_,
    fun q hq => ?_⟩
  · have hmem : q ∈ s._operations := by
      rw [hops']
      exact List.mem_cons_of_mem o hq
    refine (h.whole q hmem).imp_right (hfollowed ?_)
    have hascending := hsteady.kept.ascending
    rw [hops', List.cons_append, List.map_cons, List.pairwise_cons] at hascending
    rw [← tag_index htag]
    exact (hascending.1 q.index (List.mem_map_of_mem (List.mem_append_left _ hq))).le
  · intro q hq
    cases hq
  · obtain ⟨q', hq', haddress⟩ := h.covered q hq
    rw [hpending, List.mem_cons] at hq'
    rcases hq' with rfl | hq'
    · obtain ⟨r, hr, hra, -⟩ := hfollowed (le_refl _) hbehind
      exact ⟨r, hr, hra.trans ((tag_address htag).symm.trans haddress)⟩
    · exact ⟨q', hq', haddress⟩

theorem InMemory.room [DecidableEq A] [Inhabited S] (h : InMemory s) (hsteady : Steady env s)
    (hs : Async.step env s .room = some s') (hblock : ∀ op ∈ s.waiting, op.block.isSome) :
    InMemory s' := by
  obtain ⟨-, hstill, htags⟩ := hsteady.step_room hs
  simp only [Async.step, Option.bind_eq_some_iff, Option.map_eq_some_iff] at hs
  obtain ⟨op, hw, s₁, hq, rfl⟩ := hs
  obtain ⟨-, rfl⟩ := queue_whole hq h.journal h.no_disk
  have hnil : (emplace_op env op (put_index op.index s))._reentered_ops = [] := h.alone
  rw [hnil] at hstill htags ⊢
  refine ⟨h.journal, rfl, h.no_disk, fun o ho => ?_, fun o ho => ?_, fun o ho => ?_⟩
  · rcases mem_of_emplace ho with rfl | ho
    · exact Or.inl (hblock op (by simp [hw]))
    · exact (h.whole o ho).imp_right (followed_congr htags).mpr
  · exact (followed_congr htags).mpr (h.behind o (hstill.executing ▸ ho))
  · rw [hstill.sent] at ho
    obtain ⟨i, hi⟩ := covered_iff.mp (h.covered o ho)
    exact covered_iff.mpr ⟨i, (followed_congr htags).mpr hi⟩

theorem get_operations (h : ∀ op ∈ s._operations.head?, s.Followed op.address op.index)
    {o : Op A B R S} (ho : o ∈ (get s._queue s)._operations) :
    o ∈ s._operations ∨ s.Followed o.address o.index := by
  rcases get_cases s._queue s with ⟨-, hget⟩ | ⟨-, i, rest, op, ops, -, hops, -, -, hget⟩
  · rw [hget] at ho
    exact Or.inl ho
  · have hfollowed := h op (by simp [hops])
    rw [hget] at ho
    split_ifs at ho
    · simp only [call] at ho
      split_ifs at ho
      · rcases List.mem_cons.mp ho with rfl | ho
        · exact Or.inr hfollowed
        · exact Or.inl (by simp [hops, ho])
      · exact Or.inl (hops ▸ ho)
    · exact Or.inl ho

variable [Inhabited S]

theorem InMemory.turn (h : InMemory s) (hsteady : Steady env s) (hs : Async.turn env s = some s')
    (hnot : ∀ op ∈ s._operations.head?, s.Followed op.address op.index) : InMemory s' := by
  obtain ⟨-, htook, hidle⟩ := hsteady.kept.turn hs
  have htags : s'.pending.map Op.tag = s.pending.map Op.tag := by
    rw [pending_eq, pending_eq, List.map_append, List.map_append, htook.tags, htook.later]
  have hs' : s' = get s._queue s := by
    unfold Async.turn at hs
    split at hs
    · rw [h.no_disk] at hs
      simpa using hs.symm
    · split_ifs at hs
      exact (Option.some.inj hs).symm
    · cases hs
  have hdisk : s'._first_disk_index = none := by
    rw [hs']
    rcases get_cases s._queue s with ⟨-, hget⟩ | ⟨-, i, rest, op, ops, -, -, -, -, hget⟩
    · rw [hget]
      exact h.no_disk
    · rw [hget]
      split_ifs <;> exact h.no_disk
  have hsent : ∀ op : Op A B R S, (s._operations.head?).map Op.tag = some op.tag →
      s.Followed op.address op.index := by
    intro op hop
    obtain ⟨o, ho, htag⟩ := Option.map_eq_some_iff.mp hop
    rw [← tag_address htag, ← tag_index htag]
    exact hnot o ho
  refine ⟨by rw [turn_journal hs, h.journal], by rw [htook.reentered, h.alone], hdisk,
    fun o ho => ?_, fun o ho => ?_, fun o ho => ?_⟩
  · rw [followed_congr htags]
    rcases get_operations hnot (hs' ▸ ho) with ho | hfollowed
    · exact h.whole o ho
    · exact Or.inr hfollowed
  · rw [followed_congr htags]
    rcases htook.sent with ⟨-, hnone⟩ | ⟨op, -, hexecuting, hfirst⟩
    · rw [hnone] at ho
      cases ho
    · obtain rfl : op = o := Option.some.inj (hexecuting.symm.trans ho)
      exact hsent op hfirst
  · have hcovered : ∃ i, s.Followed o.address i := by
      rcases htook.sent with ⟨hsame, -⟩ | ⟨op, hsame, -, hfirst⟩
      · exact covered_iff.mp (h.covered o (hsame ▸ ho))
      · rw [hsame, List.mem_append, List.mem_singleton] at ho
        rcases ho with ho | rfl
        · exact covered_iff.mp (h.covered o ho)
        · exact ⟨_, hsent o hfirst⟩
    obtain ⟨i, hi⟩ := hcovered
    exact covered_iff.mpr ⟨i, (followed_congr htags).mpr hi⟩

theorem InMemory.step [DecidableEq A] (h : InMemory s) (hsteady : Steady env s)
    (hnot : ¬Hides env s act) (hs : Async.step env s act = some s') : InMemory s' := by
  cases act with
  | store block mode resolver =>
    have hpush : Async.push env (stored env block mode resolver) s = some s' := hs
    apply h.push hsteady hpush (Or.inl rfl)
    simp only [Hides, h.journal, true_and, not_or, not_and, not_forall, Bool.not_eq_false] at hnot
    by_cases hw : s.waiting = none
    · exact Or.inl hw
    · obtain ⟨cop, order, hsquash, hfirst⟩ := hnot.2 (Option.isSome_iff_ne_none.mpr hw)
      exact Or.inr ⟨cop, order, hsquash, hfirst⟩
  | remove address rs =>
    have hpush : Async.push env (removal address rs) s = some s' := hs
    simp only [Hides, h.journal, true_and, not_or, not_not] at hnot
    exact h.push hsteady hpush (Or.inr ⟨hnot.2, rfl⟩) (Or.inl (by simpa using hnot.1))
  | room =>
    apply h.room hsteady hs
    intro op hop
    by_contra hnone
    exact hnot ⟨h.journal, op, hop, by simpa using hnone⟩
  | turn =>
    apply h.turn hsteady hs
    intro op hop
    by_contra hlast
    exact hnot ⟨h.journal, op, hop, hlast⟩
  | answer ok =>
    simp only [Async.step] at hs
    split at hs
    · rename_i op hloop
      have hexecuting : s.executing = some op := by rw [executing, hloop]
      rw [← Option.some.inj hs]
      cases ok with
      | true => exact h.ends hsteady hexecuting _
      | false =>
        refine { h with behind := fun o ho => ?_ }
        exact h.behind o (hexecuting.trans ho)
    · cases hs
  | retry =>
    simp only [Async.step] at hs
    split at hs
    · rename_i op hloop
      have hexecuting : s.executing = some op := by rw [executing, hloop]
      have hload : s._load_op env op.index = none := by rw [_load_op, h.journal]; rfl
      rw [← Option.some.inj hs, retry, hload]
      exact h.ends hsteady hexecuting s.done
    · cases hs

/-! ## With a journal -/

/-- With a journal each operation that was sent is over, or it is the one that is executed. -/
structure Executed (s : Async A B R S) : Prop where
  journal : s._journal_dir.isSome
  alone : s.waiting = none
  done : ∀ op ∈ s.sent, (∃ d ∈ s.done, d.tag = op.tag) ∨ ∃ e, s.executing = some e ∧ e.tag = op.tag

theorem Steady.load_executing (h : Steady env s) (hj : s._journal_dir.isSome)
    (hexecuting : s.executing = some op) : (s._load_op env op.index).isSome := by
  obtain ⟨-, -, o, ops, hops, htag⟩ := h.kept.head op hexecuting
  obtain ⟨t, ht⟩ := Option.isSome_iff_exists.mp hj
  obtain ⟨f, hf, -⟩ := h.kept.held t ht o (by simp [hops])
  simp [_load_op, ht, ← tag_index htag, hf]

variable [DecidableEq A]

theorem Executed.step (h : Executed s) (hsteady : Steady env s)
    (hs : Async.step env s act = some s') : Executed s' := by
  have hj : s'._journal_dir.isSome := by
    rw [step_journal hs, Option.isSome_map]
    exact h.journal
  have hpushes : ∀ {op}, Pushes env s s' op → Executed s' := by
    intro op hp
    have hexecuting : s'.executing = s.executing := by rw [executing, hp.loop, executing]
    refine ⟨hj, step_alone hs h.journal h.alone, ?_⟩
    rw [hp.sent, hp.done, hexecuting]
    exact h.done
  cases (hsteady.step hs).2 with
  | store hp => exact hpushes hp
  | remove hp => exact hpushes hp
  | still htags hpushed hsent hdone hexecuting =>
    refine ⟨hj, step_alone hs h.journal h.alone, ?_⟩
    rw [hsent, hdone, hexecuting]
    exact h.done
  | sends op htags hpushed hsent hdone hexecuting hfirst halone =>
    refine ⟨hj, step_alone hs h.journal h.alone, fun o ho => ?_⟩
    rw [hdone, hexecuting]
    rw [hsent, List.mem_append, List.mem_singleton] at ho
    rcases ho with ho | rfl
    · refine (h.done o ho).imp_right ?_
      rintro ⟨e, he, htag⟩
      exact ⟨op, rfl, (halone e he).symm.trans htag⟩
    · exact Or.inr ⟨o, rfl, rfl⟩
  | ends op htags hpushed hsent hlast hexecuting hidle hdone =>
    refine ⟨hj, step_alone hs h.journal h.alone, fun o ho => ?_⟩
    rw [hsent] at ho
    rcases hdone with hdone | hload
    · rw [hdone]
      left
      rcases h.done o ho with ⟨d, hd, htag⟩ | ⟨e, he, htag⟩
      · exact ⟨d, List.mem_append_left _ hd, htag⟩
      · obtain rfl : op = e := Option.some.inj (hexecuting.symm.trans he)
        exact ⟨op, by simp, htag⟩
    · have hsome := hsteady.load_executing h.journal hexecuting
      rw [hload] at hsome
      cases hsome

/-! ## What is seen -/

/-- The invariant of the runs in which nothing is hidden. -/
structure Seen (env : Blocks A B D R S) (s : Async A B R S) : Prop where
  steady : Steady env s
  lined : Lined s
  labelled : Labelled s.pushed
  found : InMemory s ∨ Executed s

omit [DecidableEq A] [Inhabited S] in
theorem Labelled.push (h : Labelled ops) (hop : op.pushes = [ops.length]) :
    Labelled (ops ++ [op]) := by
  intro k o ho
  rw [List.getElem?_append] at ho
  split_ifs at ho with hk
  · exact h k o ho
  · obtain ⟨hlt, rfl⟩ := List.getElem?_eq_some_iff.mp ho
    simp only [List.length_singleton] at hlt
    have hlen : k = ops.length := by omega
    simp [hop, hlen]

theorem not_overtakes (h : ¬Hides env s act) : ¬Overtakes env s act := by
  cases act with
  | store block mode resolver => exact fun ho => h (Or.inl ho)
  | remove address rs => exact id
  | room => exact id
  | turn => exact id
  | answer ok => exact id
  | retry => exact id

theorem Seen.step (h : Seen env s) (hnot : ¬Hides env s act) (hs : Async.step env s act = some s') :
    Seen env s' := by
  obtain ⟨hsteady, hchange⟩ := h.steady.step hs
  refine ⟨hsteady, h.lined.change h.steady hchange (not_overtakes hnot), ?_,
    h.found.imp (fun hm => hm.step h.steady hnot hs) fun he => he.step h.steady hs⟩
  cases hchange with
  | store hp => exact hp.pushed ▸ h.labelled.push rfl
  | remove hp => exact hp.pushed ▸ h.labelled.push rfl
  | still htags hpushed => exact hpushed ▸ h.labelled
  | sends op htags hpushed => exact hpushed ▸ h.labelled
  | ends op htags hpushed => exact hpushed ▸ h.labelled

omit [Inhabited S] in
theorem Seen.later (h : Seen env s) : s.later = s.waiting.toList := by
  have hnil : s._reentered_ops = [] := by
    rcases h.found with hm | he
    · exact hm.alone
    · exact h.steady.quiet he.alone
  rw [Async.later, hnil, List.append_nil]

theorem Seen.hit (h : Seen env s) (version : B → Option Int) {p : Op A B R S}
    (hk : s.pushed[k]? = some p) (hlater : ∀ o ∈ s.later, o.address ≠ p.address)
    (hop : op ∈ s._operations) (haddress : op.address = p.address)
    (hmax : ∀ o ∈ s._operations, o.address = p.address → o.index ≤ op.index)
    (hnewest : op.newest = k) (hentry : s.newest_entry p.address = some op)
    (local_version : Option Int) :
    Gives env version s k p local_version (_fetch env version s p.address local_version) := by
  have hcarried : ∀ {o : Op A B R S}, Carries env s.pushed o → o.newest = k →
      p.block.map env.data = o.block.map env.data := by
    rintro o ⟨q, hq, -, -, -, hblock⟩ ho
    rw [ho] at hq
    rw [Option.some.inj (hk.symm.trans hq), hblock]
  rw [_fetch, hentry]
  dsimp only
  cases hblock : op.block with
  | some b =>
    have hdata := hcarried (h.steady.kept.in_memory op hop (Or.inr (by rw [hblock]; rfl))) hnewest
    rw [hblock] at hdata
    dsimp only
    split_ifs with hversion
    · exact ⟨b, hdata, hversion.2⟩
    · exact hdata
  | none =>
    rcases h.found with hm | he
    · -- without a journal the block would be in memory
      rcases hm.whole op hop with hsome | ⟨o, ho, hoa, hlt⟩
      · rw [hblock] at hsome
        cases hsome
      · rw [pending_eq, List.mem_append] at ho
        rcases ho with ho | ho
        · have hle := hmax o ho (hoa.trans haddress)
          omega
        · exact absurd (hoa.trans haddress) (hlater o ho)
    · obtain ⟨t, ht⟩ := Option.isSome_iff_exists.mp he.journal
      have hheld := h.steady.kept.held t ht op (by simp [hop])
      cases hload : s._load_op env op.index with
      | none =>
        obtain ⟨f, hf, -⟩ := hheld
        simp [_load_op, ht, hf] at hload
      | some l =>
        obtain ⟨hcarries, -, hnewest'⟩ := loaded_carries ht hheld hload
        have hdata := hcarried hcarries (hnewest'.trans hnewest)
        dsimp only
        cases hl : l.block with
        | some b =>
          rw [hl] at hdata
          exact hdata
        | none =>
          rw [hl] at hdata
          exact Option.map_eq_none_iff.mp hdata

instance (s : Async A B R S) (a : A) (i : Int) : Decidable (s.Followed a i) :=
  inferInstanceAs (Decidable (∃ _ ∈ _, _))

instance (s : Async A B R S) : (act : Action A B R S) → Decidable (Hides env s act)
  | .store block mode resolver =>
    decidable_of_iff (Overtakes env s (.store block mode resolver) ∨
      s._journal_dir.isNone ∧ s.waiting.isSome ∧
        ∀ found ∈ squash env s (stored env block mode resolver), found.2.first = false)
      (by simp [Hides, Option.isNone_iff_eq_none])
  | .remove _ _ =>
    decidable_of_iff (s._journal_dir.isNone ∧ (s.waiting.isSome ∨ ¬s.Full))
      (by simp [Hides, Option.isNone_iff_eq_none])
  | .room =>
    decidable_of_iff (s._journal_dir.isNone ∧ ∃ op ∈ s.waiting, op.block.isNone)
      (by simp [Hides, Option.isNone_iff_eq_none])
  | .turn =>
    decidable_of_iff (s._journal_dir.isNone ∧ ∃ op ∈ s._operations.head?,
      ¬s.Followed op.address op.index) (by simp [Hides, Option.isNone_iff_eq_none])
  | .answer _ | .retry => isFalse id

end Async

end memo.consensus
