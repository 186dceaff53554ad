-- The two models of the cache have one disk cache: what one keeps in the order of its use, and
-- counts on 64 bits, the other sorts when it prunes, and counts without a bound.
import Mathlib.Data.List.TakeWhile
import Memo.Cache
import Memo.DiskCache
import Memo.MultiIndex

open stores

namespace memo.consensus

/-! ## Sorted lists -/

section

variable {α : Type} {r : α → α → Prop} [DecidableRel r] {l : List α}

theorem orderedInsert_append {a x : α} (h : r a x) (l : List α) :
    (l ++ [x]).orderedInsert r a = l.orderedInsert r a ++ [x] := by
  induction l with
  | nil => simp [h]
  | cons b l ih => by_cases hab : r a b <;> simp [hab, ih]

theorem orderedInsert_first {a : α} (h : ∀ b ∈ l, r a b) : l.orderedInsert r a = a :: l := by
  cases l with
  | nil => rfl
  | cons b l => exact List.orderedInsert_cons_of_le r l (h b List.mem_cons_self)

theorem orderedInsert_last {a : α} (h : ∀ b ∈ l, ¬r a b) : l.orderedInsert r a = l ++ [a] := by
  induction l with
  | nil => rfl
  | cons b l ih =>
    rw [List.forall_mem_cons] at h
    rw [List.orderedInsert_of_not_le r l h.1, ih h.2, List.cons_append]

theorem insertionSort_middle {x : α} {before after : List α} (hle : ∀ a ∈ before ++ after, r a x)
    (hlt : ∀ a ∈ after, ¬r x a) :
    (before ++ x :: after).insertionSort r = (before ++ after).insertionSort r ++ [x] := by
  induction before with
  | nil => exact orderedInsert_last fun b hb => hlt b ((List.mem_insertionSort r).mp hb)
  | cons a before ih =>
    rw [List.cons_append, List.forall_mem_cons] at hle
    rw [List.cons_append, List.cons_append, List.insertionSort_cons, ih hle.2,
      orderedInsert_append hle.1, List.insertionSort_cons]

variable [IsTrans α r]

theorem filter_orderedInsert (p : α → Bool) (a : α) (hl : l.Pairwise r) :
    (l.orderedInsert r a).filter p =
      if p a then (l.filter p).orderedInsert r a else l.filter p := by
  induction l with
  | nil => cases hp : p a <;> simp [hp]
  | cons b l ih =>
    have hrest := ih hl.of_cons
    by_cases hab : r a b
    · have hall : ∀ c ∈ (b :: l).filter p, r a c := by
        intro c hc
        rcases List.mem_cons.mp (List.mem_filter.mp hc).1 with rfl | hc
        · exact hab
        · exact IsTrans.trans a b c hab ((List.pairwise_cons.mp hl).1 c hc)
      rw [List.orderedInsert_cons_of_le r l hab, orderedInsert_first hall]
      cases hp : p a <;> simp [hp]
    · rw [List.orderedInsert_of_not_le r l hab]
      cases hb : p b <;> cases hp : p a <;> simp_all

theorem filter_insertionSort [Std.Total r] (p : α → Bool) (l : List α) :
    (l.insertionSort r).filter p = (l.filter p).insertionSort r := by
  induction l with
  | nil => rfl
  | cons a l ih =>
    rw [List.insertionSort_cons, filter_orderedInsert p a (List.pairwise_insertionSort r l), ih]
    cases hp : p a <;> simp [hp]

end

namespace Cache

variable {A B : Type} [DecidableEq A] {env : Cacheable A B} {s s' : Cache env}
  {d : disk_cache.Cache A} {a : A} {b : B} {z : UInt64}

/-! ## Entries by their address -/

section

variable {l l' : List (CachedCHB A)} {c : CachedCHB A}

theorem find_perm (hl : l.Perm l') (h : (l.map CachedCHB.address).Nodup) :
    l.find? (fun c => c.address = a) = l'.find? fun c => c.address = a := by
  have h' : (l'.map CachedCHB.address).Nodup := (hl.map _).nodup_iff.mp h
  ext c
  rw [multi_index.find_iff h, multi_index.find_iff h', hl.mem_iff]

theorem split_entry (h : (l.map CachedCHB.address).Nodup) (hc : c ∈ l) :
    ∃ before after, l = before ++ c :: after ∧
      (∀ d ∈ before ++ after, d.address ≠ c.address) ∧
      (l.filter fun d => d.address ≠ c.address) = before ++ after := by
  obtain ⟨before, after, rfl⟩ := List.append_of_mem hc
  rw [List.map_append, List.map_cons, List.nodup_middle, List.nodup_cons] at h
  have hne : ∀ d ∈ before ++ after, d.address ≠ c.address := by
    intro d hd heq
    exact h.1 (heq ▸ List.map_append ▸ List.mem_map_of_mem hd)
  refine ⟨before, after, rfl, hne, ?_⟩
  rw [List.filter_append, List.filter_cons_of_neg (by simp), ← List.filter_append,
    List.filter_eq_self]
  simpa using hne

end

/-- An entry, with its size as a number. -/
def counted (c : disk_cache.CachedCHB A) : CachedCHB A := ⟨c.address, c.size.toNat, c.last_used⟩

/-- The models have one disk cache, and the same blocks in memory. An address has one entry, the
clock does not go back, and what is counted is at least what there is. -/
structure SameDisk (s : Cache env) (d : disk_cache.Cache A) : Prop where
  path : d._disk_cache_path = s._disk_cache_path.isSome
  size : d._disk_cache_size.toNat = s._disk_cache_size
  memory_size : d._cache_size = 0 ↔ s._cache_size = 0
  used : d._disk_cache_used.toNat = s._disk_cache_used
  files : d._disk_cache.map counted = s.by_use
  memory : ∀ a, a ∈ d._cache ↔ (s.cached a).isSome
  distinct : (s._disk_cache.map CachedCHB.address).Nodup
  past : ∀ c ∈ s._disk_cache, c.last_used ≤ s.clock
  covered : (s._disk_cache.map CachedCHB.size).sum ≤ s._disk_cache_used

theorem by_use_perm (s : Cache env) : s.by_use.Perm s._disk_cache := List.perm_insertionSort _ _

theorem find_counted (a : A) (l : List (disk_cache.CachedCHB A)) :
    (l.map counted).find? (fun c => c.address = a) =
      (disk_cache.Cache.find a l).map counted := by
  rw [List.find?_map]
  rfl

theorem SameDisk.find (h : SameDisk s d) (a : A) :
    (disk_cache.Cache.find a d._disk_cache).map counted = s.on_disk a := by
  rw [← find_counted, h.files]
  exact (find_perm s.by_use_perm.symm h.distinct).symm

theorem SameDisk.listed (h : SameDisk s d) {c : disk_cache.CachedCHB A} (hc : c ∈ d._disk_cache) :
    counted c ∈ s._disk_cache := by
  rw [← s.by_use_perm.mem_iff, ← h.files]
  exact List.mem_map_of_mem hc

theorem SameDisk.nodup (h : SameDisk s d) : (d._disk_cache.map fun c => c.address).Nodup := by
  have hnodup := (s.by_use_perm.map CachedCHB.address).nodup_iff.mpr h.distinct
  rw [← h.files, List.map_map] at hnodup
  exact hnodup

/-! ## Files that go -/

theorem SameDisk.drop_file (h : SameDisk s d) {c : disk_cache.CachedCHB A}
    (hc : c ∈ d._disk_cache) :
    c.size ≤ d._disk_cache_used ∧ SameDisk (s.drop_file (counted c)) { d with
      _disk_cache := d._disk_cache.filter fun c' => c'.address ≠ c.address
      _disk_cache_used := d._disk_cache_used - c.size } := by
  have hmem := h.listed hc
  have hsum : (s._disk_cache.map CachedCHB.size).sum = c.size.toNat +
      ((s.drop_file (counted c))._disk_cache.map CachedCHB.size).sum := by
    obtain ⟨before, after, hsplit, -, hfilter⟩ := split_entry h.distinct hmem
    unfold Cache.drop_file
    rw [hfilter, hsplit]
    exact (List.perm_middle.map CachedCHB.size).sum_eq
  have hcovered := h.covered
  have hle : c.size ≤ d._disk_cache_used := by
    rw [UInt64.le_iff_toNat_le, h.used]
    omega
  refine ⟨hle, ?_, h.size, h.memory_size, ?_, ?_, h.memory, ?_, ?_, ?_⟩
  · exact h.path.trans (Option.isSome_map ..).symm
  · rw [UInt64.toNat_sub_of_le _ _ hle, h.used]
    rfl
  · refine Eq.trans ?_ (filter_insertionSort _ _)
    rw [← Cache.by_use, ← h.files, List.filter_map]
    rfl
  · exact h.distinct.sublist (List.filter_sublist.map _)
  · exact fun c' hc' => h.past c' (List.mem_filter.mp hc').1
  · change _ ≤ s._disk_cache_used - c.size.toNat
    omega

theorem SameDisk.prune {l : List (disk_cache.CachedCHB A)}
    (h : SameDisk s { d with _disk_cache := l }) :
    SameDisk (Cache.prune s.by_use s).2 (disk_cache.Cache.prune l d) ∧
      (disk_cache.Cache.prune l d).asserted = (d.asserted || !(Cache.prune s.by_use s).1) := by
  have hlt : ∀ {s : Cache env} {d : disk_cache.Cache A}, SameDisk s d →
      (d._disk_cache_size < d._disk_cache_used ↔ ¬s._disk_cache_used ≤ s._disk_cache_size) := by
    intro s d h
    rw [UInt64.lt_iff_toNat_lt, h.size, h.used, not_le]
  induction l generalizing s d with
  | nil =>
    have hnil : s.by_use = [] := h.files.symm
    have hlt' := hlt h
    rw [hnil, Cache.prune, disk_cache.Cache.prune]
    split_ifs with hover
    · have hover' := hlt'.mp hover
      exact ⟨{ h with }, by simp [hover']⟩
    · have hover' := not_not.mp fun hnot => hover (hlt'.mpr hnot)
      exact ⟨h, by simp [hover']⟩
  | cons c l ih =>
    have hfiles : s.by_use = counted c :: l.map counted := h.files.symm
    have hlt' := hlt h
    rw [hfiles, Cache.prune, disk_cache.Cache.prune]
    by_cases hover : d._disk_cache_size < d._disk_cache_used
    · rw [if_pos hover, if_neg (hlt'.mp hover)]
      obtain ⟨-, hdrop⟩ := h.drop_file (c := c) (by simp)
      have hdistinct := h.nodup
      rw [List.map_cons, List.nodup_cons] at hdistinct
      have hrest : (c :: l).filter (fun c' => c'.address ≠ c.address) = l := by
        rw [List.filter_cons_of_neg (by simp), List.filter_eq_self]
        intro c' hc'
        simp only [decide_eq_true_eq]
        exact fun heq => hdistinct.1 (heq ▸ List.mem_map_of_mem hc')
      dsimp only at hdrop
      rw [hrest] at hdrop
      have hnext := ih (s := s.drop_file (counted c)) (d := { d with
        _disk_cache_used := d._disk_cache_used - c.size
        wrapped := d.wrapped || d._disk_cache_used < c.size })
        { hdrop with }
      rw [← hdrop.files] at hnext
      exact hnext
    · rw [if_neg hover, if_pos (not_not.mp fun hnot => hover (hlt'.mpr hnot))]
      exact ⟨h, by simp⟩

/-! ## Files that come -/

omit [DecidableEq A] in
theorem place_last {c : disk_cache.CachedCHB A} {l : List (disk_cache.CachedCHB A)}
    (h : ∀ c' ∈ l, c'.last_used ≤ c.last_used) : disk_cache.Cache.place c l = l ++ [c] := by
  have hall : ∀ c' ∈ l, decide (c'.last_used ≤ c.last_used) = true := by simpa using h
  unfold disk_cache.Cache.place
  rw [List.takeWhile_eq_self_iff.mpr hall, List.dropWhile_eq_nil_iff.mpr hall]

theorem SameDisk.add_entry (h : SameDisk s d) {now : Int}
    (hpast : ∀ c ∈ s._disk_cache, c.last_used ≤ now) (hnow : now ≤ s.clock)
    (hfit : s._disk_cache_used + z.toNat < 2 ^ 64) :
    SameDisk
      { s with
        _disk_cache := if (s.on_disk a).isSome then s._disk_cache
          else s._disk_cache ++ [⟨a, z.toNat, now⟩]
        _disk_cache_used := s._disk_cache_used + z.toNat }
      { d with
        _disk_cache := disk_cache.Cache.emplace ⟨a, z, now⟩ d._disk_cache
        _disk_cache_used := d._disk_cache_used + z } := by
  have hfind : (disk_cache.Cache.find a d._disk_cache).isSome = (s.on_disk a).isSome := by
    rw [← h.find, Option.isSome_map]
  have hcovered := h.covered
  refine { h with
    used := ?_
    files := ?_
    distinct := ?_
    past := ?_
    covered := ?_ }
  · rw [UInt64.toNat_add, h.used, Nat.mod_eq_of_lt hfit]
  · unfold disk_cache.Cache.emplace Cache.by_use
    dsimp only
    rw [hfind]
    split_ifs
    · exact h.files
    · rw [place_last (c := ⟨a, z, now⟩) fun c hc => hpast (counted c) (h.listed hc),
        List.map_append, h.files, insertionSort_middle (by simpa using hpast) (by simp)]
      simp [counted, by_use]
  · split_ifs with hin
    · exact h.distinct
    · rw [List.map_append, List.nodup_append]
      refine ⟨h.distinct, by simp, fun a₁ ha₁ a₂ ha₂ => ?_⟩
      obtain ⟨c, hc, rfl⟩ := List.mem_map.mp ha₁
      obtain rfl : a₂ = a := by simpa using ha₂
      exact fun heq => hin (List.find?_isSome.mpr ⟨c, hc, by simpa using heq⟩)
  · split_ifs with hin
    · exact h.past
    · intro c hc
      rcases List.mem_append.mp hc with hc | hc
      · exact h.past c hc
      · rw [List.mem_singleton.mp hc]
        exact hnow
  · dsimp only
    split_ifs with hin
    · omega
    · rw [List.map_append, List.sum_append]
      simp
      omega

theorem SameDisk.load {l : List ((_ : A) × B)} {files : List (A × UInt64)} (h : SameDisk s d)
    (hfiles : files.map (fun p => (p.1, p.2.toNat)) = l.map fun e => (e.1, env.size e.2))
    (hzero : ∀ c ∈ s._disk_cache, c.last_used ≤ 0) (hclock : 0 ≤ s.clock)
    (hnodup : (s._disk_cache.map CachedCHB.address ++ l.map Sigma.fst).Nodup)
    (hfit : s._disk_cache_used + (l.map fun e => env.size e.2).sum < 2 ^ 64) :
    SameDisk
      { s with
        _disk_cache := s._disk_cache ++ l.map fun e => ⟨e.1, env.size e.2, 0⟩
        _disk_cache_used := s._disk_cache_used + (l.map fun e => env.size e.2).sum }
      (d._load_disk_cache files) := by
  induction l generalizing s d files with
  | nil =>
    obtain rfl : files = [] := List.map_eq_nil_iff.mp hfiles
    simp only [List.map_nil, List.append_nil, List.sum_nil, Nat.add_zero]
    exact h
  | cons e l ih =>
    cases files with
    | nil => cases hfiles
    | cons p files =>
      rw [List.map_cons, List.map_cons, List.cons.injEq, Prod.mk.injEq] at hfiles
      obtain ⟨⟨haddress, hsize⟩, hrest⟩ := hfiles
      rw [List.map_cons, List.sum_cons, ← hsize] at hfit ⊢
      rw [List.map_cons, ← haddress] at hnodup
      have hadd := h.add_entry (a := p.1) (z := p.2) hzero hclock (by omega)
      have hnone : ¬(s.on_disk p.1).isSome := by
        intro hin
        obtain ⟨c, hc, heq⟩ := List.find?_isSome.mp hin
        exact (List.disjoint_of_nodup_append hnodup) (List.mem_map_of_mem hc) (by simp_all)
      rw [if_neg hnone] at hadd
      have hnext := ih hadd hrest (by simpa [or_imp, forall_and] using hzero) hclock
        (by simpa using hnodup) (by dsimp only; omega)
      simp only [List.append_assoc, Nat.add_assoc] at hnext
      rw [List.map_cons, ← haddress, ← hsize]
      exact hnext

/-- The caches that are made over one directory, whose files are listed in the same order. -/
theorem SameDisk.new {disk_cache_path : Option (Shelf env fun b => env.version b = ⊥)}
    {files : List (A × UInt64)} {clock : Int} (backend : Shelf env fun _ => True)
    (cache_size : Nat) (cache_invalidation cache_ttl : Option Int) (disk_cache_size : UInt64)
    (hfiles : ∀ shelf ∈ disk_cache_path, files.map (fun p => (p.1, p.2.toNat)) =
      shelf.blocks.entries.map fun e => (e.1, env.size e.2))
    (hfit : ∀ shelf ∈ disk_cache_path, weight env.size shelf.blocks < 2 ^ 64)
    (hclock : 0 ≤ clock) :
    SameDisk
      (Cache.new backend (some cache_size) cache_invalidation cache_ttl disk_cache_path
        (some disk_cache_size.toNat) clock)
      (disk_cache.Cache.start disk_cache_path.isSome disk_cache_size cache_size files) := by
  have hsize : (if disk_cache_path.isSome then disk_cache_size else 0).toNat =
      if disk_cache_path.isNone then 0 else disk_cache_size.toNat := by
    cases disk_cache_path <;> rfl
  have hstart : SameDisk
      (Cache.start backend (some cache_size) cache_invalidation cache_ttl disk_cache_path
        (some disk_cache_size.toNat) clock)
      { _disk_cache_path := disk_cache_path.isSome
        _disk_cache_size := if disk_cache_path.isSome then disk_cache_size else 0
        _cache_size := cache_size } :=
    ⟨rfl, hsize, Int.natCast_eq_zero.symm, rfl, rfl, by simp [cached, Cache.start],
      List.nodup_nil, nofun, le_rfl⟩
  unfold Cache.new Cache.loaded disk_cache.Cache.start
  dsimp only
  cases disk_cache_path with
  | none => exact hstart
  | some shelf =>
    by_cases hnone : disk_cache_size = 0
    · subst hnone
      exact hstart
    · have hsome : disk_cache_size.toNat ≠ 0 := fun hzero =>
        hnone (UInt64.toNat_inj.mp hzero)
      rw [if_pos (by simpa [Cache.start] using hsome), if_neg (by simpa using hnone)]
      exact hstart.load (hfiles shelf rfl) nofun hclock shelf.blocks.nodupKeys
        (by simpa [Cache.start, weight] using hfit shelf rfl)

/-- A block is written to the disk, and others are pruned, or the assertion fails. -/
theorem SameDisk.push (h : SameDisk s d) {hb : env.version b = ⊥} (hz : z.toNat = env.size b)
    (hfit : s._disk_cache_used + env.size b < 2 ^ 64) :
    SameDisk (s._disk_cache_push b hb).2 (d._disk_cache_push s.clock (env.address b) z) ∧
      (d._disk_cache_push s.clock (env.address b) z).asserted =
        (d.asserted || !(s._disk_cache_push b hb).1) := by
  unfold Cache._disk_cache_push disk_cache.Cache._disk_cache_push
  cases hpath : s._disk_cache_path with
  | none =>
    rw [if_neg (by simp [h.path, hpath])]
    exact ⟨h, by simp⟩
  | some files =>
    rw [if_pos (by simp [h.path, hpath])]
    have hadd := h.add_entry (a := env.address b) h.past le_rfl (hz ▸ hfit)
    rw [hz] at hadd
    exact SameDisk.prune (s := s.add_file b hb files) (d := { d with
      _disk_cache_used := d._disk_cache_used + z
      pushed := true }) { hadd with path := h.path.trans (by rw [hpath]; rfl) }

/-- What `DiskCache` sees of a block. -/
def seen (env : Cacheable A B) (b : B) (z : UInt64) : disk_cache.Block :=
  if env.version b = ⊥ then .immutable_block z else .mutable_block

theorem cached_emplace (b : B) (a : A) (s : Cache env) :
    ((s.emplace b).cached a).isSome ↔ a = env.address b ∨ (s.cached a).isSome := by
  unfold Cache.emplace
  split_ifs with hin
  · constructor
    · exact Or.inr
    · rintro (rfl | h)
      · exact hin
      · exact h
  · simp only [Cache.cached, List.find?_append, Option.isSome_or, Bool.or_eq_true]
    rw [or_comm]
    refine or_congr_left ?_
    by_cases ha : a = env.address b
    · simp [ha]
    · simp [ha, Ne.symm ha]

theorem SameDisk.insert_cache (h : SameDisk s d) (hvalid : env.valid b = true)
    (hz : z.toNat = env.size b) (hfit : s._disk_cache_used + env.size b < 2 ^ 64) :
    SameDisk (s._insert_cache b).2
      (d._insert_cache s.clock (env.address b) (seen env b z)) := by
  have hsize : d._disk_cache_size = 0 ↔ s._disk_cache_size = 0 := by
    rw [← h.size, ← UInt64.toNat_inj, UInt64.toNat_zero]
  unfold Cache._insert_cache disk_cache.Cache._insert_cache seen
  rw [if_neg (by simp [hvalid])]
  by_cases hb : env.version b = ⊥
  · rw [dif_pos hb, if_pos hb]
    dsimp only
    by_cases hzero : s._disk_cache_size = 0
    · rw [if_neg (not_not.mpr hzero), if_pos (hsize.mpr hzero)]
      exact h
    · rw [if_pos hzero, if_neg (mt hsize.mp hzero)]
      exact (h.push hz hfit).1
  · rw [dif_neg hb, if_neg hb]
    dsimp only
    by_cases hzero : s._cache_size = 0
    · rw [if_neg (not_not.mpr hzero), if_pos (h.memory_size.mpr hzero)]
      exact h
    · rw [if_pos hzero, if_neg (mt h.memory_size.mp hzero)]
      have hmemory : ∀ a, a ∈ Insert.insert (env.address b) d._cache ↔
          ((s.emplace b).cached a).isSome := by
        intro a
        rw [Finset.mem_insert, h.memory, cached_emplace]
      unfold Cache.emplace at hmemory ⊢
      split_ifs at hmemory ⊢ <;>
        exact { h with memory := hmemory }

/-! ## Files that are used or removed -/

theorem erase_eq_filter {l : List (disk_cache.CachedCHB A)} (h : (l.map fun c => c.address).Nodup)
    (a : A) : (l.eraseP fun c => c.address = a) = l.filter fun c => c.address ≠ a := by
  induction l with
  | nil => rfl
  | cons c l ih =>
    rw [List.map_cons, List.nodup_cons] at h
    by_cases hc : c.address = a
    · rw [List.eraseP_cons_of_pos (by simpa using hc), List.filter_cons_of_neg (by simpa using hc)]
      refine (List.filter_eq_self.mpr fun c' hc' => ?_).symm
      simp only [decide_eq_true_eq]
      exact fun heq => h.1 (hc ▸ heq ▸ List.mem_map_of_mem hc')
    · rw [List.eraseP_cons_of_neg (by simpa using hc), List.filter_cons_of_pos (by simpa using hc),
        ih h.2]

theorem find_mem {c : disk_cache.CachedCHB A} {l : List (disk_cache.CachedCHB A)}
    (h : disk_cache.Cache.find a l = some c) : c ∈ l ∧ c.address = a :=
  ⟨List.mem_of_find?_eq_some h, by simpa using List.find?_some h⟩

theorem SameDisk.remove (h : SameDisk s d) (a : A) : SameDisk (s._remove a) (d._remove a) := by
  unfold Cache._remove Cache.drop Cache.send disk_cache.Cache._remove
  by_cases hin : a ∈ d._cache
  · rw [if_pos hin, if_pos ((h.memory a).mp hin)]
    refine { h with memory := fun a' => ?_ }
    rw [Finset.mem_erase, h.memory]
    simp only [Cache.cached, List.find?_isSome, List.mem_filter, decide_eq_true_eq]
    constructor
    · rintro ⟨hne, c, hc, rfl⟩
      exact ⟨c, ⟨hc, hne⟩, rfl⟩
    · rintro ⟨c, ⟨hc, hne⟩, rfl⟩
      exact ⟨hne, c, hc, rfl⟩
  · rw [if_neg hin, if_neg (mt (h.memory a).mpr hin), ← h.find]
    cases hfind : disk_cache.Cache.find a d._disk_cache with
    | none => exact { h with }
    | some c =>
      obtain ⟨hc, rfl⟩ := find_mem hfind
      obtain ⟨-, hdrop⟩ := h.drop_file hc
      rw [← erase_eq_filter h.nodup] at hdrop
      exact { hdrop with }

/-- An entry after its file, or another, was read. -/
def read_at (a : A) (now : Int) (c : CachedCHB A) : CachedCHB A :=
  if c.address = a then { c with last_used := now } else c

theorem map_read_at {β : Type} {g : CachedCHB A → β}
    (hg : ∀ (c : CachedCHB A) now, g { c with last_used := now } = g c) (a : A) (now : Int)
    (l : List (CachedCHB A)) : (l.map (read_at a now)).map g = l.map g := by
  rw [List.map_map]
  refine List.map_congr_left fun c _ => ?_
  rw [Function.comp_apply, read_at]
  split_ifs
  · exact hg c now
  · rfl

/-- The file that is read goes behind all others when the clock went on since they were. -/
theorem by_use_read_at {c : CachedCHB A} (hc : c ∈ s._disk_cache)
    (hdistinct : (s._disk_cache.map CachedCHB.address).Nodup)
    (hpast : ∀ c ∈ s._disk_cache, c.last_used < s.clock) :
    by_use { s with _disk_cache := s._disk_cache.map (read_at c.address s.clock) } =
      (s.by_use.filter fun c' => c'.address ≠ c.address) ++ [{ c with last_used := s.clock }] := by
  obtain ⟨before, after, hsplit, hne, hfilter⟩ := split_entry hdistinct hc
  have hkept : ∀ l : List (CachedCHB A), (∀ c' ∈ l, c' ∈ before ++ after) →
      l.map (read_at c.address s.clock) = l := by
    intro l hl
    refine (List.map_congr_left fun c' hc' => ?_).trans (List.map_id l)
    exact if_neg (hne c' (hl c' hc'))
  unfold by_use
  rw [filter_insertionSort, hfilter, hsplit, List.map_append, List.map_cons, read_at, if_pos rfl,
    hkept before fun c' hc' => List.mem_append_left _ hc',
    hkept after fun c' hc' => List.mem_append_right _ hc']
  have hlt : ∀ c' ∈ before ++ after, c'.last_used < s.clock := fun c' hc' =>
    hpast c' (List.mem_filter.mp (hfilter ▸ hc')).1
  exact insertionSort_middle (fun c' hc' => (hlt c' hc').le) fun c' hc' =>
    not_le.mpr (hlt c' (List.mem_append_right _ hc'))

theorem SameDisk.touch (h : SameDisk s d) (hpast : ∀ c ∈ s._disk_cache, c.last_used < s.clock)
    {c : disk_cache.CachedCHB A} (hc : disk_cache.Cache.find a d._disk_cache = some c) :
    SameDisk { s with _disk_cache := s._disk_cache.map (read_at a s.clock) }
      { d with _disk_cache := disk_cache.Cache.touch s.clock a d._disk_cache } := by
  obtain ⟨hmem, rfl⟩ := find_mem hc
  refine { h with files := ?_, distinct := ?_, past := ?_, covered := ?_ }
  · unfold disk_cache.Cache.touch
    rw [hc]
    refine Eq.trans ?_ (by_use_read_at (h.listed hmem) h.distinct hpast).symm
    dsimp only
    rw [erase_eq_filter h.nodup, place_last, List.map_append, ← h.files, List.filter_map]
    · rfl
    · exact fun c' hc' => h.past _ (h.listed (List.mem_filter.mp hc').1)
  · rw [map_read_at (g := CachedCHB.address) fun _ _ => rfl]
    exact h.distinct
  · intro c' hc'
    obtain ⟨c₁, hc₁, rfl⟩ := List.mem_map.mp hc'
    unfold read_at
    split_ifs
    · exact le_rfl
    · exact h.past c₁ hc₁
  · rw [map_read_at (g := CachedCHB.size) fun _ _ => rfl]
    exact h.covered

theorem SameDisk.hit (h : SameDisk s d) (hpast : ∀ c ∈ s._disk_cache, c.last_used < s.clock)
    {local_version : Option Int} {r : Reply B} (hr : r ≠ .failed)
    (hs : s._fetch_cache a local_version = some (r, s')) :
    SameDisk s' (d._fetch_cache s.clock a).1 ∧ (d._fetch_cache s.clock a).2 = false := by
  unfold Cache._fetch_cache at hs
  unfold disk_cache.Cache._fetch_cache
  cases hcached : s.cached a with
  | some hit =>
    rw [if_pos ((h.memory a).mpr (by rw [hcached]; rfl))]
    have hsame : SameDisk (s.modify a fun c => { c with last_used := s.clock }) d := by
      refine { h with memory := fun a' => ?_ }
      rw [h.memory]
      simp only [Cache.cached, Cache.modify, List.find?_isSome, List.mem_map, decide_eq_true_eq]
      constructor
      · rintro ⟨c, hc, rfl⟩
        refine ⟨_, ⟨c, hc, rfl⟩, ?_⟩
        split_ifs <;> rfl
      · rintro ⟨_, ⟨c, hc, rfl⟩, heq⟩
        refine ⟨c, hc, heq ▸ ?_⟩
        split_ifs <;> rfl
    rw [hcached] at hs
    cases local_version <;> cases hs <;> exact ⟨hsame, rfl⟩
  | none =>
    rw [if_neg fun hin => by simpa [hcached] using (h.memory a).mp hin]
    rw [hcached] at hs
    dsimp only at hs
    have hfind := h.find a
    cases hdisk : s.on_disk a with
    | none =>
      rw [hdisk] at hs
      cases hs
    | some c =>
      rw [hdisk] at hs hfind
      obtain ⟨c₀, hc₀, -⟩ := Option.map_eq_some_iff.mp hfind
      rw [if_pos (by rw [hc₀]; rfl)]
      dsimp only at hs
      cases hfile : s._disk_cache_path.bind fun files => files.find a with
      | none =>
        rw [hfile] at hs
        cases hs
        exact absurd rfl hr
      | some b =>
        rw [hfile] at hs
        cases hs
        exact ⟨h.touch hpast hc₀, rfl⟩

end Cache

end memo.consensus
