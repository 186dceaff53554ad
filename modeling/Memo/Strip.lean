-- Storages put together: a strip spreads the blocks over other storages, by their
-- addresses. A tree of strips over memories is meant to answer and to account like
-- one storage.
import Mathlib.Algebra.BigOperators.Fin
import Memo.Runs
import Memo.Silo

open ops runs stores

namespace memo.silo

/-! ## Trees of storages -/

/-- A `Memory`, or a `Strip` over one storage or more. -/
inductive Tree where
  | memory (m : Memory)
  | strip (base : Silo) (last : Nat) (backend : Fin (last + 1) → Tree)

/-- The sum of the digits of this address. -/
def sum (k : Key) : Nat := (k.toList.map UInt8.toNat).sum

/-- Which backend holds a key. -/
def _storage_of (k : Key) (last : Nat) : Fin (last + 1) := Fin.ofNat (last + 1) (sum k)

namespace Tree

def base : Tree → Silo
  | .memory m => m.base
  | .strip base _ _ => base

/-- The constructor of `Strip`. -/
def new (last : Nat) (backend : Fin (last + 1) → Tree) : Tree :=
  .strip { Silo.new none with
    usage := ∑ i, (backend i).base.usage
    block_count := ∑ i, (backend i).base.block_count } last backend

/-- A call of a strip is one of the backend that holds the key. -/
def delegate {last : Nat} (i : Fin (last + 1)) (result : Except Error Int × Tree) :
    Op (Silo × (Fin (last + 1) → Tree)) Error Int := fun (base, backend) =>
  (result.1, base, Function.update backend i result.2)

def on_silo {last : Nat} (f : Silo → Silo) (s : Silo × (Fin (last + 1) → Tree)) :
    Silo × (Fin (last + 1) → Tree) := (f s.1, s.2)

def get (k : Key) : Tree → Except Error Buffer
  | .memory m => m.get k
  | .strip _ last backend => (backend (_storage_of k last)).get k

def set (k : Key) (value : Buffer) (insert update : Bool) : Tree → Except Error Int × Tree
  | .memory m =>
    let (result, m) := m.set k value insert update
    (result, .memory m)
  | .strip base last backend =>
    let i := _storage_of k last
    let _set := delegate i ((backend i).set k value insert update)
    let (result, base, backend) := Silo.set on_silo _set insert update (base, backend)
    (result, .strip base last backend)

def erase (k : Key) : Tree → Except Error Int × Tree
  | .memory m =>
    let (result, m) := m.erase k
    (result, .memory m)
  | .strip base last backend =>
    let i := _storage_of k last
    let _erase := delegate i ((backend i).erase k)
    let (result, base, backend) := Silo.erase on_silo k _erase (base, backend)
    (result, .strip base last backend)

def list : Tree → Except Error (List Key)
  | .memory m => m.list
  | .strip _ last backend => do
    let res ← (List.finRange (last + 1)).mapM fun i => (backend i).list
    return res.flatten

/-- The answer of a call that returns how the usage changed. -/
def answer : Except Error Int → Answer Key Buffer Error
  | .ok delta => .delta delta
  | .error e => .error e

/-- A call and its answer. -/
def call (t : Tree) : stores.Call Key Buffer → Answer Key Buffer Error × Tree
  | .get k =>
    match t.get k with
    | .ok value => (.value value, t)
    | .error e => (.error e, t)
  | .set k value insert update =>
    let (result, t) := t.set k value insert update
    (answer result, t)
  | .erase k =>
    let (result, t) := t.erase k
    (answer result, t)
  | .list =>
    match t.list with
    | .ok keys => (.keys keys, t)
    | .error e => (.error e, t)

/-! ## What a tree holds -/

/-- The value of each key, in the backend that the key goes to. -/
def map : Tree → Map Key Buffer
  | .memory m => find m._blocks
  | .strip _ last backend => fun k => (backend (_storage_of k last)).map k

/-- The total size of the values. -/
def total : Tree → Nat
  | .memory m => size m._blocks
  | .strip _ _ backend => ∑ i, (backend i).total

/-- The number of the keys. -/
def count : Tree → Nat
  | .memory m => m._blocks.keys.length
  | .strip _ _ backend => ∑ i, (backend i).count

/-- Each backend holds the keys that go to it. -/
def Routed : Tree → Prop
  | .memory _ => True
  | .strip _ last backend =>
    ∀ i, (backend i).Routed ∧ ∀ k, ((backend i).map k).isSome → _storage_of k last = i

/-- `usage()` is the total size of the values, at every node. -/
def UsageRight : Tree → Prop
  | .memory m => m.base.usage = size m._blocks
  | .strip base _ backend => base.usage = ∑ i, (backend i).total ∧ ∀ i, (backend i).UsageRight

/-- `block_count()` is the number of the keys, at every node. -/
def CountRight : Tree → Prop
  | .memory m => m.base.block_count = m._blocks.keys.length
  | .strip base _ backend =>
    base.block_count = ∑ i, (backend i).count ∧ ∀ i, (backend i).CountRight

end Tree

/-- The sizes and the number of the blocks of each memory are ints. -/
def Tree.LeavesFit : Tree → Prop
  | .memory m => IsInt (size m._blocks) ∧ IsInt m._blocks.keys.length
  | .strip _ _ backend => ∀ i, (backend i).LeavesFit

/-- The memories count right. -/
def Tree.LeavesRight : Tree → Prop
  | .memory m => m.base.block_count = m._blocks.keys.length
  | .strip _ _ backend => ∀ i, (backend i).LeavesRight

/-- A tree as it is put together: memories with blocks that an int can measure, and strips whose
backends hold the keys that go to them. -/
inductive Built : Tree → Prop
  | memory (blocks : Table Key Buffer) : IsInt (size blocks) → IsInt blocks.keys.length →
      Built (.memory (Memory.of blocks))
  | strip (last : Nat) (backend : Fin (last + 1) → Tree) : (∀ i, Built (backend i)) →
      (∀ i k, ((backend i).map k).isSome → _storage_of k last = i) → Built (Tree.new last backend)

/-! ## What a call changes -/

/-- One key has another value, or none: the leaf that holds it and the usages on the way there
change, by `delta`. -/
inductive Changed (k : Key) (new : Option Buffer) (delta : Int) : Tree → Tree → Prop
  | memory {m m' : Memory} (blocks : m'._blocks = put k new m._blocks)
      (usage : m'.base.usage = m.base.usage + delta)
      (count : m'.base.block_count = m.base.block_count + Memory.added (find m._blocks k) new) :
      Changed k new delta (.memory m) (.memory m')
  | strip {base base' : Silo} {last : Nat} {backend : Fin (last + 1) → Tree} {b : Tree}
      (usage : base'.usage = base.usage + delta) (count : base'.block_count = base.block_count)
      (changed : Changed k new delta (backend (_storage_of k last)) b) :
      Changed k new delta (.strip base last backend)
        (.strip base' last (Function.update backend (_storage_of k last) b))

namespace Tree

variable {k : Key} {value : Buffer} {insert update : Bool} {t : Tree}

theorem delegate_apply {last : Nat} (i : Fin (last + 1)) (result : Except Error Int × Tree)
    (base : Silo) (backend : Fin (last + 1) → Tree) :
    delegate i result (base, backend) = (result.1, base, Function.update backend i result.2) := rfl

theorem set_refused {r : Refusal Key} (h : set_refusal t.map k insert update = some r) :
    t.set k value insert update = (.error (thrown r), t) := by
  induction t with
  | memory m =>
    unfold set
    rw [Memory.set_refused h]
  | strip base last backend ih =>
    unfold set
    have hsame := ih (_storage_of k last) h
    dsimp only
    rw [hsame]
    by_cases hflags : (insert || update) = true
    · have hset : Silo.set on_silo (delegate (_storage_of k last) (.error (thrown r),
          backend (_storage_of k last))) insert update (base, backend) =
            (.error (thrown r), base, Function.update backend _ (backend _)) :=
        Silo.set_of_error hflags (delegate_apply _ _ base backend)
      rw [hset]
      dsimp only
      rw [Function.update_eq_self]
    · rw [set_refusal_idle hflags, Option.some.injEq] at h
      rw [Silo.set_idle _ _ hflags, h]

/-- What a change is worth is an int that was counted. -/
abbrev paid (old new : Option Buffer) : Int := to_int (Memory.worth old new)

theorem set_accepted (h : set_refusal t.map k insert update = none) :
    ∃ t', t.set k value insert update = (.ok (paid (t.map k) (some value)), t') ∧
      Changed k (some value) (paid (t.map k) (some value)) t t' := by
  induction t with
  | memory m =>
    have hset : m.set k value insert update = _ := Memory.set_accepted h
    have hmemory : Changed k (some value) (paid (find m._blocks k) (some value)) (.memory m)
        (.memory ((m.changed k (some value)).on_silo
          (Silo.written (paid (find m._blocks k) (some value))))) :=
      Changed.memory rfl (Silo.written_usage _ _) (Silo.written_block_count _ _)
    refine ⟨_, ?_, hmemory⟩
    unfold set
    rw [hset]
    rfl
  | strip base last backend ih =>
    obtain ⟨b, hb, hchanged⟩ := ih (_storage_of k last) h
    have hset : ∀ d, Silo.set on_silo (delegate (_storage_of k last) (.ok d, b)) insert update
        (base, backend) =
          (.ok d, base.written d, Function.update backend (_storage_of k last) b) := by
      intro d
      have hdelegate := delegate_apply (_storage_of k last) (.ok d, b) base backend
      rw [Silo.set_of_ok (flags_of_accepted h) hdelegate]
      rfl
    have hstrip := Changed.strip (Silo.written_usage (paid (map (.strip base last backend) k)
      (some value)) base) (Silo.written_block_count _ base) hchanged
    refine ⟨_, ?_, hstrip⟩
    unfold set
    dsimp only
    rw [hb, hset]
    rfl

theorem erase_refused (h : t.map k = none) :
    t.erase k = (.error (thrown (.missing k)), t) := by
  induction t with
  | memory m =>
    unfold erase
    rw [Memory.erase_refused h]
  | strip base last backend ih =>
    have herase : Silo.erase on_silo k (delegate (_storage_of k last) (.error (thrown (.missing k)),
        backend (_storage_of k last))) (base, backend) =
          (.error (thrown (.missing k)), base, Function.update backend _ (backend _)) :=
      Silo.erase_of_error rfl
    unfold erase
    dsimp only
    rw [ih (_storage_of k last) h, herase]
    dsimp only
    rw [Function.update_eq_self]

theorem erase_accepted {prev : Buffer} (h : t.map k = some prev) :
    ∃ t', t.erase k = (.ok (paid (some prev) none), t') ∧
      Changed k none (paid (some prev) none) t t' := by
  induction t with
  | memory m =>
    have herase := Memory.erase_accepted h
    refine ⟨.memory (m.erase k).2, ?_, ?_⟩
    · unfold erase
      rw [herase]
    · rw [herase]
      exact Changed.memory rfl rfl rfl
  | strip base last backend ih =>
    obtain ⟨b, hb, hchanged⟩ := ih (_storage_of k last) h
    have herase : ∀ d, Silo.erase on_silo k (delegate (_storage_of k last) (.ok d, b))
        (base, backend) =
          (.ok d, base.erased k d, Function.update backend (_storage_of k last) b) :=
      fun _ => Silo.erase_of_ok rfl
    refine ⟨.strip (base.erased k _) last (Function.update backend _ b), ?_,
      Changed.strip rfl rfl hchanged⟩
    unfold erase
    dsimp only
    rw [hb, herase]

end Tree

/-! ## What stays right -/

theorem sum_update {n : Nat} {T : Type} (f : T → Nat) (g : Fin n → T) (i : Fin n) (b : T) :
    ∑ j, f (Function.update g i b j) + f (g i) = ∑ j, f (g j) + f b := by
  have hcomp : (fun j => f (Function.update g i b j)) =
      Function.update (fun j => f (g j)) i (f b) :=
    funext fun j => Function.apply_update (fun _ => f) g i b j
  rw [hcomp, Finset.sum_update_of_mem (Finset.mem_univ i)]
  have hsplit := Finset.sum_sdiff (f := fun j => f (g j)) (Finset.subset_univ {i})
  rw [Finset.sum_singleton] at hsplit
  omega

namespace Changed

variable {k : Key} {new : Option Buffer} {delta : Int} {t t' : Tree}

theorem map (h : Changed k new delta t t') : t'.map = Function.update t.map k new := by
  induction h with
  | @memory m m' blocks _ _ =>
    change find m'._blocks = _
    rw [blocks]
    exact find_put k new m._blocks
  | @strip base base' last backend b _ _ _ ih =>
    funext k'
    change (Function.update backend (_storage_of k last) b (_storage_of k' last)).map k' = _
    by_cases hroute : _storage_of k' last = _storage_of k last
    · rw [hroute, Function.update_self, ih]
      by_cases hk : k' = k
      · rw [hk, Function.update_self, Function.update_self]
      · rw [Function.update_of_ne hk, Function.update_of_ne hk, ← hroute]
        rfl
    · have hk : k' ≠ k := fun hk => hroute (hk ▸ rfl)
      rw [Function.update_of_ne hroute, Function.update_of_ne hk]
      rfl

theorem total (h : Changed k new delta t t') :
    (t'.total : Int) = t.total + Memory.worth (t.map k) new := by
  induction h with
  | @memory m m' blocks _ _ =>
    have hweight := weight_put List.length k new m._blocks
    change ((size m'._blocks : Nat) : Int) = size m._blocks + Memory.worth (find m._blocks k) new
    rw [blocks]
    unfold size Memory.worth
    omega
  | @strip base base' last backend b _ _ _ ih =>
    have hsum := sum_update Tree.total backend (_storage_of k last) b
    change ((∑ i, (Function.update backend (_storage_of k last) b i).total : Nat) : Int) =
      (∑ i, (backend i).total : Nat) + Memory.worth ((backend (_storage_of k last)).map k) new
    omega

theorem count (h : Changed k new delta t t') :
    (t'.count : Int) = t.count + Memory.added (t.map k) new := by
  induction h with
  | @memory m m' blocks _ _ =>
    have hweight := weight_put (fun _ => 1) k new m._blocks
    rw [weight_one, weight_one] at hweight
    change ((m'._blocks.keys.length : Nat) : Int) =
      m._blocks.keys.length + Memory.added (find m._blocks k) new
    rw [blocks]
    unfold Memory.added
    omega
  | @strip base base' last backend b _ _ _ ih =>
    have hsum := sum_update Tree.count backend (_storage_of k last) b
    change ((∑ i, (Function.update backend (_storage_of k last) b i).count : Nat) : Int) =
      (∑ i, (backend i).count : Nat) + Memory.added ((backend (_storage_of k last)).map k) new
    omega

theorem each {last : Nat} {backend : Fin (last + 1) → Tree} {i : Fin (last + 1)} {b : Tree}
    {P : Fin (last + 1) → Tree → Prop} (h : ∀ j, P j (backend j)) (hb : P i b)
    (j : Fin (last + 1)) : P j (Function.update backend i b j) := by
  by_cases hj : j = i
  · rw [hj, Function.update_self]
    exact hb
  · rw [Function.update_of_ne hj]
    exact h j

theorem usage_right (h : Changed k new delta t t') (ht : t.UsageRight)
    (hd : delta = Memory.worth (t.map k) new) : t'.UsageRight := by
  induction h with
  | @memory m m' blocks usage count =>
    have htotal := (Changed.memory blocks usage count).total
    change m'.base.usage = size m'._blocks
    change ((size m'._blocks : Nat) : Int) = size m._blocks + _ at htotal
    have hm : m.base.usage = size m._blocks := ht
    rw [usage, hm, htotal, hd]
  | @strip base base' last backend b usage count changed ih =>
    have hstrip : Changed k new delta (.strip base last backend) _ :=
      Changed.strip usage count changed
    have htotal := hstrip.total
    refine ⟨?_, each (P := fun _ t => t.UsageRight) ht.2 (ih (ht.2 _) hd)⟩
    rw [usage, ht.1, hd]
    exact htotal.symm

theorem leaves_right (h : Changed k new delta t t') (ht : t.LeavesRight) : t'.LeavesRight := by
  induction h with
  | @memory m m' blocks usage count =>
    have hcount := (Changed.memory blocks usage count).count
    change m'.base.block_count = m'._blocks.keys.length
    change ((m'._blocks.keys.length : Nat) : Int) = m._blocks.keys.length + _ at hcount
    have hm : m.base.block_count = m._blocks.keys.length := ht
    rw [count, hm, hcount]
    rfl
  | @strip base base' last backend b usage count changed ih =>
    exact each (P := fun _ t => t.LeavesRight) ht (ih (ht _))

theorem routed (h : Changed k new delta t t') (ht : t.Routed) : t'.Routed := by
  induction h with
  | memory => trivial
  | @strip base base' last backend b usage count changed ih =>
    refine each (P := fun i t => t.Routed ∧ ∀ k, (t.map k).isSome → _storage_of k last = i) ht ?_
    refine ⟨ih (ht _).1, ?_⟩
    intro k' hk'
    by_cases hk : k' = k
    · rw [hk]
    · rw [changed.map, Function.update_of_ne hk] at hk'
      exact (ht _).2 k' hk'

end Changed

/-! ## The counts of the strips -/

/-- A tree with the same nodes, whose strips count what they counted. -/
inductive SameNodes : Tree → Tree → Prop
  | memory (m m' : Memory) : SameNodes (.memory m) (.memory m')
  | strip {base base' : Silo} {last : Nat} {backend backend' : Fin (last + 1) → Tree} :
      base'.block_count = base.block_count → (∀ i, SameNodes (backend i) (backend' i)) →
        SameNodes (.strip base last backend) (.strip base' last backend')

/-- Each strip holds as many keys as it did. -/
inductive SameCounts : Tree → Tree → Prop
  | memory (m m' : Memory) : SameCounts (.memory m) (.memory m')
  | strip {base base' : Silo} {last : Nat} {backend backend' : Fin (last + 1) → Tree} :
      ∑ i, (backend' i).count = ∑ i, (backend i).count →
        (∀ i, SameCounts (backend i) (backend' i)) →
          SameCounts (.strip base last backend) (.strip base' last backend')

theorem SameNodes.refl (t : Tree) : SameNodes t t := by
  induction t with
  | memory m => exact .memory m m
  | strip base last backend ih => exact .strip rfl ih

theorem SameNodes.changed {t₀ t t' : Tree} (h : SameNodes t₀ t) {k : Key} {new : Option Buffer}
    {delta : Int} (hc : Changed k new delta t t') : SameNodes t₀ t' := by
  induction hc generalizing t₀ with
  | @memory m m' _ _ _ =>
    cases h with
    | memory m₀ => exact .memory m₀ m'
  | @strip base base' last backend b _ count _ ih =>
    cases h with
    | strip hcount heach =>
      refine .strip (count.trans hcount) ?_
      intro i
      by_cases hi : i = _storage_of k last
      · rw [hi, Function.update_self]
        exact ih (heach _)
      · rw [Function.update_of_ne hi]
        exact heach i

theorem SameNodes.count_right_iff {t₀ t : Tree} (h : SameNodes t₀ t) (h₀ : t₀.CountRight)
    (hleaves : t.LeavesRight) : t.CountRight ↔ SameCounts t₀ t := by
  induction h with
  | memory m m' => exact ⟨fun _ => .memory m m', fun _ => hleaves⟩
  | @strip base base' last backend backend' count each ih =>
    have hbuilt : base.block_count = (∑ i, (backend i).count : Nat) := h₀.1
    constructor
    · intro ht
      have hnow : base'.block_count = (∑ i, (backend' i).count : Nat) := ht.1
      refine .strip ?_ fun i => (ih i (h₀.2 i) (hleaves i)).mp (ht.2 i)
      rw [count, hbuilt] at hnow
      exact_mod_cast hnow.symm
    · intro hsame
      cases hsame with
      | strip hcount heach =>
        refine ⟨?_, fun i => (ih i (h₀.2 i) (hleaves i)).mpr (heach i)⟩
        rw [count, hbuilt]
        exact_mod_cast hcount.symm

/-! ## The answers -/

namespace Tree

theorem get_spec (t : Tree) (k : Key) :
    t.get k = match t.map k with
      | some value => .ok value
      | none => .error (thrown (.missing k)) := by
  induction t with
  | memory m =>
    unfold get Memory.get Memory._find map
    cases find m._blocks k <;> rfl
  | strip base last backend ih => exact ih (_storage_of k last)

theorem mapM_ok {α β : Type} {f : α → Except Error β} {g : α → β} {l : List α}
    (h : ∀ a ∈ l, f a = .ok (g a)) : l.mapM f = .ok (l.map g) := by
  induction l with
  | nil => rfl
  | cons a l ih =>
    rw [List.mapM_cons, h a List.mem_cons_self, ih fun b hb => h b (List.mem_cons_of_mem a hb)]
    rfl

theorem list_spec {t : Tree} (hfit : t.LeavesFit) (husage : t.UsageRight)
    (hleaves : t.LeavesRight) (hrouted : t.Routed) :
    ∃ keys, t.list = .ok keys ∧ keys.Nodup ∧ ∀ k, k ∈ keys ↔ (t.map k).isSome := by
  induction t with
  | memory m =>
    refine ⟨m._blocks.keys, ?_, m._blocks.keys_nodup, ?_⟩
    · have hcount : m.base.block_count = to_int m._blocks.keys.length :=
        hleaves.trans (to_int_eq.mpr hfit.2).symm
      have htotal : m.base.usage = mapped_size m._blocks := by
        rw [Memory.mapped_size_eq]
        exact husage.trans (to_int_eq.mpr hfit.1).symm
      unfold list Memory.list Memory._check_invariants
      rw [if_pos hcount, if_pos htotal]
      rfl
    · intro k
      exact (AList.mem_keys.symm.trans AList.lookup_isSome.symm)
  | strip base last backend ih =>
    have hall := fun i => ih i (hfit i) (husage.2 i) (hleaves i) (hrouted i).1
    choose keys hlist hnodup hmem using hall
    refine ⟨(List.finRange (last + 1)).flatMap keys, ?_, ?_, ?_⟩
    · unfold list
      rw [mapM_ok fun i _ => hlist i]
      rfl
    · rw [List.nodup_flatMap]
      refine ⟨fun i _ => hnodup i, ?_⟩
      apply (List.nodup_finRange (last + 1)).imp
      intro i j hij k hi hj
      -- a key of both backends would go to both
      have hki := (hrouted i).2 k ((hmem i k).mp hi)
      have hkj := (hrouted j).2 k ((hmem j k).mp hj)
      exact hij (hki.symm.trans hkj)
    · intro k
      rw [List.mem_flatMap]
      constructor
      · intro ⟨i, _, hk⟩
        have hsome := (hmem i k).mp hk
        have hroute := (hrouted i).2 k hsome
        change ((backend (_storage_of k last)).map k).isSome
        rw [hroute]
        exact hsome
      · intro hk
        exact ⟨_storage_of k last, List.mem_finRange _, (hmem _ k).mpr hk⟩

end Tree

/-! ## A whole run -/

/-- What a call changes is worth an int, and a list is asked of memories that an int can measure. -/
def Fits (t : Tree) : stores.Call Key Buffer → Prop
  | .list => t.LeavesFit
  | c => ∀ k new, c.change t.map = some (k, new) → IsInt (Memory.worth (t.map k) new)

def step (t : Tree) (c : stores.Call Key Buffer) : Option Tree := some (t.call c).2

/-- What holds of a tree that was `t₀`. -/
structure Kept (t₀ t : Tree) : Prop where
  usage : t.UsageRight
  leaves : t.LeavesRight
  routed : t.Routed
  nodes : SameNodes t₀ t

/-- The answer is that of a map, and so is what the tree then holds. -/
def LikeMap (t : Tree) (c : stores.Call Key Buffer) : Prop :=
  c.Answers List.length thrown t.map (t.call c).1 ∧ (t.call c).2.map = c.next t.map

theorem Kept.changed {t₀ t t' : Tree} (h : Kept t₀ t) {k : Key} {new : Option Buffer}
    (hfit : IsInt (Memory.worth (t.map k) new))
    (hc : Changed k new (Tree.paid (t.map k) new) t t') : Kept t₀ t' :=
  ⟨hc.usage_right h.usage (to_int_eq.mpr hfit), hc.leaves_right h.leaves, hc.routed h.routed,
    h.nodes.changed hc⟩

theorem Kept.set {t₀ t : Tree} (h : Kept t₀ t) {k : Key} {value : Buffer} {insert update : Bool}
    (hf : Fits t (.set k value insert update)) :
    LikeMap t (.set k value insert update) ∧
      Kept t₀ (t.call (.set k value insert update)).2 := by
  unfold LikeMap
  cases hr : set_refusal t.map k insert update with
  | some r =>
    have hcall : t.call (.set k value insert update) = (.error (thrown r), t) := by
      simp only [Tree.call, Tree.set_refused hr]
      rfl
    rw [hcall]
    refine ⟨⟨?_, ?_⟩, h⟩
    · simp only [stores.Call.Answers, hr]
    · simp only [stores.Call.next, stores.Call.change, hr]
  | none =>
    obtain ⟨t', hset, hc⟩ := @Tree.set_accepted k value insert update t hr
    have hcall : t.call (.set k value insert update) =
        (.delta (Tree.paid (t.map k) (some value)), t') := by
      simp only [Tree.call, hset]
      rfl
    have hfit := hf k (some value) (by simp only [stores.Call.change, hr])
    rw [hcall]
    refine ⟨⟨?_, ?_⟩, h.changed hfit hc⟩
    · simp only [stores.Call.Answers, hr]
      exact congrArg Answer.delta (to_int_eq.mpr hfit)
    · simp only [stores.Call.next, stores.Call.change, hr]
      exact hc.map

theorem Kept.erase {t₀ t : Tree} (h : Kept t₀ t) {k : Key} (hf : Fits t (.erase k)) :
    LikeMap t (.erase k) ∧ Kept t₀ (t.call (.erase k)).2 := by
  unfold LikeMap
  cases hk : t.map k with
  | none =>
    have hcall : t.call (.erase k) = (.error (thrown (.missing k)), t) := by
      simp only [Tree.call, Tree.erase_refused hk]
      rfl
    rw [hcall]
    refine ⟨⟨?_, ?_⟩, h⟩
    · simp only [stores.Call.Answers, hk]
    · simp only [stores.Call.next, stores.Call.change, hk]
  | some prev =>
    obtain ⟨t', herase, hc⟩ := Tree.erase_accepted hk
    have hcall : t.call (.erase k) = (.delta (Tree.paid (some prev) none), t') := by
      simp only [Tree.call, herase]
      rfl
    have hfit := hf k none (by simp only [stores.Call.change, hk])
    rw [← hk] at hc
    rw [hcall]
    refine ⟨⟨?_, ?_⟩, h.changed hfit hc⟩
    · simp only [stores.Call.Answers, hk]
      rw [hk] at hfit
      have hworth : Memory.worth (some prev) none = -prev.length := by simp [Memory.worth, part]
      rw [← hworth]
      exact congrArg Answer.delta (to_int_eq.mpr hfit)
    · simp only [stores.Call.next, stores.Call.change, hk]
      exact hc.map

theorem Kept.get {t₀ t : Tree} (h : Kept t₀ t) (k : Key) :
    LikeMap t (.get k) ∧ Kept t₀ (t.call (.get k)).2 := by
  unfold LikeMap
  cases hk : t.map k with
  | none =>
    have hcall : t.call (.get k) = (.error (thrown (.missing k)), t) := by
      simp only [Tree.call, t.get_spec k, hk]
    rw [hcall]
    refine ⟨⟨?_, rfl⟩, h⟩
    simp only [stores.Call.Answers, hk]
  | some value =>
    have hcall : t.call (.get k) = (.value value, t) := by
      simp only [Tree.call, t.get_spec k, hk]
    rw [hcall]
    refine ⟨⟨?_, rfl⟩, h⟩
    simp only [stores.Call.Answers, hk]

theorem Kept.list {t₀ t : Tree} (h : Kept t₀ t) (hf : Fits t .list) :
    LikeMap t .list ∧ Kept t₀ (t.call .list).2 := by
  obtain ⟨keys, hlist, hnodup, hmem⟩ := Tree.list_spec hf h.usage h.leaves h.routed
  have hcall : t.call .list = (.keys keys, t) := by
    simp only [Tree.call, hlist]
  unfold LikeMap
  rw [hcall]
  exact ⟨⟨⟨keys, rfl, hnodup, hmem⟩, rfl⟩, h⟩

theorem Kept.call {t₀ t : Tree} (h : Kept t₀ t) {c : stores.Call Key Buffer} (hf : Fits t c) :
    LikeMap t c ∧ Kept t₀ (t.call c).2 := by
  cases c with
  | get k => exact h.get k
  | set k value insert update => exact h.set hf
  | erase k => exact h.erase hf
  | list => exact h.list hf

theorem Tree.UsageRight.base {t : Tree} (h : t.UsageRight) : t.base.usage = t.total := by
  cases t with
  | memory m => exact h
  | strip base last backend => exact h.1

theorem Tree.CountRight.base {t : Tree} (h : t.CountRight) : t.base.block_count = t.count := by
  cases t with
  | memory m => exact h
  | strip base last backend => exact h.1

theorem Built.right {t : Tree} (h : Built t) :
    t.UsageRight ∧ t.CountRight ∧ t.LeavesRight ∧ t.Routed := by
  induction h with
  | memory blocks hsize hcount =>
    have hblocks := (Memory.of_block_count blocks).trans (to_int_eq.mpr hcount)
    have htotal := (Memory.of_usage blocks).trans (to_int_eq.mpr hsize)
    exact ⟨htotal, hblocks, hblocks, trivial⟩
  | strip last backend _ hroute ih =>
    refine ⟨⟨?_, fun i => (ih i).1⟩, ⟨?_, fun i => (ih i).2.1⟩, fun i => (ih i).2.2.1,
      fun i => ⟨(ih i).2.2.2, hroute i⟩⟩
    · change ∑ i, (backend i).base.usage = ((∑ i, (backend i).total : Nat) : Int)
      rw [Nat.cast_sum]
      exact Finset.sum_congr rfl fun i _ => (ih i).1.base
    · change ∑ i, (backend i).base.block_count = ((∑ i, (backend i).count : Nat) : Int)
      rw [Nat.cast_sum]
      exact Finset.sum_congr rfl fun i _ => (ih i).2.1.base

theorem Built.kept {t : Tree} (h : Built t) : Kept t t :=
  ⟨h.right.1, h.right.2.2.1, h.right.2.2.2, SameNodes.refl t⟩

/-- A tree answers like one map and knows its usage at every node, as long as what its calls change
is worth an int. It knows its count at every node when and only when each strip holds as many keys
as when it was put together. -/
theorem a_tree_accounts_like_one_map_but_for_the_counts_of_strips {t₀ t : Tree} (h₀ : Built t₀)
    {calls : List (stores.Call Key Buffer)} (h : Run step Fits t₀ calls t) :
    t.map = calls.foldl stores.Call.next t₀.map ∧ (∀ c, Fits t c → LikeMap t c) ∧ t.UsageRight ∧
      (t.CountRight ↔ SameCounts t₀ t) := by
  have hkept : ∀ calls t, Run step Fits t₀ calls t → Kept t₀ t := by
    intro calls t h
    apply h.invariant h₀.kept
    intro t c t' hk hf hs
    rw [← Option.some.inj hs]
    exact (hk.call hf).2
  have hmap : t.map = calls.foldl stores.Call.next t₀.map := by
    induction h with
    | nil => rfl
    | snoc h hf hs ih =>
      rw [← Option.some.inj hs, ((hkept _ _ h).call hf).1.2, ih, List.foldl_append]
      rfl
  have ht := hkept calls t h
  have hcounts := ht.nodes.count_right_iff h₀.right.2.1 ht.leaves
  exact ⟨hmap, fun c hf => (ht.call hf).1, ht.usage, hcounts⟩

instance decidableLeavesFit : (t : Tree) → Decidable t.LeavesFit
  | .memory _ => inferInstanceAs (Decidable (_ ∧ _))
  | .strip _ _ backend =>
    have := fun i => decidableLeavesFit (backend i)
    inferInstanceAs (Decidable (∀ i, (backend i).LeavesFit))

instance decidableWorth (t : Tree) (change : Option (Key × Option Buffer)) :
    Decidable (∀ k new, change = some (k, new) → IsInt (Memory.worth (t.map k) new)) :=
  match change with
  | none => isTrue fun _ _ h => absurd h (Option.some_ne_none _).symm
  | some (k, new) =>
    decidable_of_iff (IsInt (Memory.worth (t.map k) new))
      ⟨fun h _ _ heq => by cases heq; exact h, fun h => h k new rfl⟩

instance (t : Tree) : (c : stores.Call Key Buffer) → Decidable (Fits t c)
  | .list => inferInstanceAs (Decidable t.LeavesFit)
  | .get k => decidableWorth t (stores.Call.change t.map (.get k))
  | .set k v insert update => decidableWorth t (stores.Call.change t.map (.set k v insert update))
  | .erase k => decidableWorth t (stores.Call.change t.map (.erase k))

/-- A key by its first byte. -/
def key (b : UInt8) : Key := Vector.ofFn fun i => if i = 0 then b else 0

/-- A strip over two empty memories. -/
def halves : Tree := Tree.new 1 fun _ => .memory (Memory.of ∅)

theorem halves_built : Built halves := by
  apply Built.strip
  · exact fun _ => Built.memory ∅ (by decide) (by decide)
  · intro i k hk
    cases hk

/-- A block is put in each half, and one is replaced and removed again. -/
theorem two_halves_account_like_one_map :
    ∃ t, t.base.usage = 1 ∧ (∀ c, Fits t c → LikeMap t c) ∧ t.UsageRight ∧
      (t.CountRight ↔ SameCounts halves t) := by
  have hrun : ((exec step Fits halves [.set (key 1) [1, 2, 3] true false,
      .set (key 2) [4] true false, .set (key 1) [5] true true, .list, .erase (key 1)]).map
        fun t => t.base.usage) = some 1 := by
    decide +kernel
  obtain ⟨t, ht, husage⟩ := Run.of_exec_map hrun
  exact ⟨t, husage, (a_tree_accounts_like_one_map_but_for_the_counts_of_strips halves_built ht).2⟩

/-- One block is inserted: the strip still counts none. -/
theorem a_strip_does_not_count_a_new_block :
    ¬∀ (t₀ t : Tree) (calls : List (stores.Call Key Buffer)), Built t₀ →
      Run step anyStep t₀ calls t → (∀ c, LikeMap t c) ∧ t.UsageRight ∧ t.CountRight := by
  intro h
  have hrun : ((exec step anyStep halves [.set (key 1) [1, 2, 3] true false]).map
      fun t => (t.base.block_count, t.count)) = some (0, 1) := by
    decide +kernel
  obtain ⟨t, ht, hcounts⟩ := Run.of_exec_map hrun
  have hbase := (h halves t _ halves_built ht).2.2.base
  rw [Prod.mk.injEq] at hcounts
  rw [hcounts.1, hcounts.2] at hbase
  exact absurd hbase (by decide)

end memo.silo
