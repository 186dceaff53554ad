-- The files that a node of the `kelips` overlay gossips about. The new ones are picked first, then
-- the old ones of the node itself, then any others; the old ones are not always looked for among
-- those that were picked.
import Memo.KelipsFiles
import Memo.Sampling

open sampling

namespace memo.overlay.kelips.picks

section

variable {A E : Type} {k : Nat}

/-! ## `Node::pickFiles` -/

/-- A file, as it is gossiped about. -/
abbrev Entry (A : Type) : Type := A × Time × A

def entry (f : File A) : Entry A := (f.address, f.last_seen, f.home_node)

def key (e : Entry A) : A × A := (e.1, e.2.2)

/-- `has`. -/
def has [DecidableEq A] (res : List (Entry A)) (f : File A) : Bool :=
  res.any fun e => e.1 = f.address ∧ e.2.2 = f.home_node

def is_new (n : Node A E k) (f : File A) : Bool := f.gossip_count < n._config.new_threshold

def is_old [DecidableEq A] (now : Time) (n : Node A E k) (f : File A) : Bool :=
  f.home_node = n._self ∧ n._config.old_threshold < now - f.last_gossip

/-- The files of the node itself are seen now. -/
def refresh [DecidableEq A] (now : Time) (n : Node A E k) (f : File A) : File A :=
  if f.home_node = n._self then { f with last_seen := now } else f

/-- The loop that looks for the candidates whose indexes were picked. -/
def walk (p : File A → Bool) : Nat → List Nat → List (File A) → List (Entry A)
  | _, [], _ => []
  | _, _ :: _, [] => []
  | idx, i :: indexes, f :: files =>
    if p f then
      if idx = i then entry f :: walk p (idx + 1) indexes files
      else walk p (idx + 1) (i :: indexes) files
    else walk p idx (i :: indexes) files

/-- The candidates, when there are many of them. -/
def pick_many (p : File A → Bool) (max : Nat) (files : List (File A)) (ds : Draws) :
    List (Entry A) × Draws :=
  let (indexes, ds) := pick_indexes max (files.countP p) ds
  (walk p 0 indexes files, ds)

/-- The candidates, when there are few of them. -/
def pick_few (p : File A → Bool) (max : Nat) (files : List (File A)) (ds : Draws) :
    List (Entry A) × Draws :=
  some_of max ((files.filter p).map entry) ds

/-- The entry of the table that an entry was picked from. -/
def gossiped [DecidableEq A] (now : Time) : List (File A) → Entry A → List (File A)
  | [], _ => []
  | f :: files, e =>
    if f.address = e.1 ∧ e.2.2 = f.home_node then
      { f with gossip_count := f.gossip_count + 1, last_gossip := now } :: files
    else f :: gossiped now files e

def max_new (count : Nat) : Nat := count / 2

def max_old (count : Nat) : Nat := count / 2 + count % 2

/-- The new files. -/
def pick_new (files : List (File A)) (count : Nat) (n : Node A E k) (ds : Draws) :
    List (Entry A) × Draws :=
  if max_new count * 2 ≤ files.countP (is_new n) then
    pick_many (is_new n) (max_new count) files ds
  else pick_few (is_new n) (max_new count) files ds

/-- The old files of the node. When there are many, those that were picked are among them. -/
def pick_old [DecidableEq A] (files : List (File A)) (count : Nat) (now : Time) (n : Node A E k)
    (res : List (Entry A)) (ds : Draws) : List (Entry A) × Draws :=
  if max_old count * 2 ≤ files.countP (is_old now n) then
    pick_many (is_old now n) (max_old count) files ds
  else pick_few (fun f => is_old now n f && !has res f) (max_old count) files ds

/-- The entries that are picked, of these files. -/
def picked [DecidableEq A] (files : List (File A)) (count : Nat) (now : Time) (n : Node A E k)
    (ds : Draws) :
    List (Entry A) :=
  let (res, ds) := pick_new files count n ds
  let (old, ds) := pick_old files count now n res ds
  let res := res ++ old
  if res.length < count then
    res ++ (pick_few (fun f => !has res f) (count - res.length) files ds).1
  else res

/-- `Node::pickFiles`, with `_config.gossip.files` and what the generator gives. -/
def pickFiles [DecidableEq A] (count : Nat) (now : Time) (n : Node A E k) (ds : Draws) :
    List (Entry A) × Node A E k :=
  let files := n.files.map (refresh now n)
  let res := picked files count now n ds
  (res, { n with files := res.foldl (gossiped now) files })

/-! ## Entries and files -/

variable {n : Node A E k} {now : Time} {files : List (File A)} {p : File A → Bool}
  {res : List (Entry A)} {ds : Draws} {count max : Nat}

theorem key_entry (f : File A) : key (entry f) = (f.address, f.home_node) := rfl

theorem entries_nodup (h : (files.map fun f => (f.address, f.home_node)).Nodup)
    (p : File A → Bool) : ((files.filter p).map entry).Nodup := by
  have hsub : (((files.filter p).map entry).map key).Nodup := by
    rw [List.map_map]
    exact h.sublist (List.filter_sublist.map _)
  exact List.Nodup.of_map key hsub

theorem eq_of_key (h : (files.map fun f => (f.address, f.home_node)).Nodup) {f g : File A}
    (hf : f ∈ files) (hg : g ∈ files)
    (hkey : (f.address, f.home_node) = (g.address, g.home_node)) : f = g :=
  List.inj_on_of_nodup_map h hf hg hkey

theorem has_iff [DecidableEq A] {f : File A} :
    has res f = true ↔ ∃ e ∈ res, key e = (f.address, f.home_node) := by
  simp [has, key]

theorem walk_eq {idx : Nat} {indexes : List Nat} (h : indexes.Pairwise (· < ·))
    (hle : ∀ i ∈ indexes, idx ≤ i) :
    walk p idx indexes files =
      indexes.filterMap fun i => ((files.filter p).map entry)[i - idx]? := by
  fun_induction walk p idx indexes files with
  | case1 => rfl
  | case2 => simp
  | case3 idx indexes f files hp ih =>
    obtain ⟨hlt, hrest⟩ := List.pairwise_cons.1 h
    rw [ih hrest fun i hi => hlt i hi, List.filter_cons_of_pos hp, List.map_cons,
      List.filterMap_cons_some (b := entry f) (by simp)]
    congr 1
    apply List.filterMap_congr
    intro i hi
    have hi := hlt i hi
    rw [show i - idx = i - (idx + 1) + 1 by omega, List.getElem?_cons_succ]
  | case4 idx i indexes f files hp hne ih =>
    have hlt : ∀ j ∈ i :: indexes, idx + 1 ≤ j := by
      intro j hj
      have hi := hle i List.mem_cons_self
      rcases List.mem_cons.1 hj with rfl | hj
      · omega
      · have := (List.pairwise_cons.1 h).1 j hj
        omega
    rw [ih h hlt, List.filter_cons_of_pos hp, List.map_cons]
    apply List.filterMap_congr
    intro j hj
    have hj := hlt j hj
    rw [show j - idx = j - (idx + 1) + 1 by omega, List.getElem?_cons_succ]
  | case5 idx i indexes f files hp ih =>
    rw [ih h hle, List.filter_cons_of_neg hp]

theorem pick_many_eq (ds : Draws) (hmax : max ≤ files.countP p) :
    pick_many p max files ds = pick_n max ((files.filter p).map entry) ds := by
  have hlength : ((files.filter p).map entry).length = files.countP p := by
    rw [List.length_map, List.countP_eq_length_filter]
  obtain ⟨hindexes, -⟩ := pick_indexes_spec hmax ds
  unfold pick_many pick_n
  rw [hlength]
  exact Prod.ext (walk_eq hindexes.sorted fun _ _ => Nat.zero_le _) rfl

/-! ## The batch -/

/-- What has to be true of the files: they do not have the same address and home. -/
def Once (files : List (File A)) : Prop := (files.map fun f => (f.address, f.home_node)).Nodup

theorem pick_many_sample (h : Once files) (hmax : max ≤ files.countP p) (ds : Draws) :
    Sample max ((files.filter p).map entry) (pick_many p max files ds).1 := by
  rw [pick_many_eq ds hmax]
  apply pick_n_sample (entries_nodup h p)
  rw [List.length_map, ← List.countP_eq_length_filter]
  exact hmax

theorem pick_few_sample (h : Once files) (ds : Draws) :
    Sample max ((files.filter p).map entry) (pick_few p max files ds).1 :=
  some_of_sample (entries_nodup h p) ds

/-- Entries of a table, each of them once. -/
structure Entries (files : List (File A)) (res : List (Entry A)) : Prop where
  nodup : res.Nodup
  subset : ∀ e ∈ res, ∃ f ∈ files, entry f = e

theorem entries_of_sample {l : List (Entry A)} (h : Sample max ((files.filter p).map entry) l) :
    Entries files l ∧ ∀ e ∈ l, ∃ f ∈ files, p f = true ∧ entry f = e := by
  have hsubset : ∀ e ∈ l, ∃ f ∈ files, p f = true ∧ entry f = e := by
    intro e he
    obtain ⟨f, hf, rfl⟩ := List.mem_map.1 (h.subset e he)
    exact ⟨f, (List.mem_filter.1 hf).1, (List.mem_filter.1 hf).2, rfl⟩
  refine ⟨⟨h.nodup, fun e he => ?_⟩, hsubset⟩
  obtain ⟨f, hf, -, rfl⟩ := hsubset e he
  exact ⟨f, hf, rfl⟩

variable [DecidableEq A]

theorem Entries.mem_iff (hres : Entries files res) (h : Once files) {f : File A} (hf : f ∈ files) :
    has res f = true ↔ entry f ∈ res := by
  rw [has_iff]
  constructor
  · rintro ⟨e, he, hkey⟩
    obtain ⟨g, hg, rfl⟩ := hres.subset e he
    rwa [eq_of_key h hf hg hkey.symm]
  · exact fun he => ⟨_, he, rfl⟩

theorem Entries.length_add (hres : Entries files res) (h : Once files) :
    res.length + ((files.filter fun f => !has res f).map entry).length = files.length := by
  have hperm : res.Perm ((files.filter fun f => has res f).map entry) := by
    rw [List.perm_ext_iff_of_nodup hres.nodup (entries_nodup h _)]
    intro e
    simp only [List.mem_map, List.mem_filter]
    constructor
    · intro he
      obtain ⟨f, hf, rfl⟩ := hres.subset e he
      exact ⟨f, ⟨hf, (hres.mem_iff h hf).2 he⟩, rfl⟩
    · rintro ⟨f, ⟨hf, hhas⟩, rfl⟩
      exact (hres.mem_iff h hf).1 hhas
  rw [hperm.length_eq, List.length_map, List.length_map, ← List.countP_eq_length_filter,
    ← List.countP_eq_length_filter]
  have hcount := List.length_eq_countP_add_countP (has res) (l := files)
  simp only [Bool.not_eq_true, Bool.decide_eq_false] at hcount
  exact hcount.symm

omit [DecidableEq A] in
theorem Entries.append {more : List (Entry A)} (hres : Entries files res)
    (hmore : Entries files more) (hnew : ∀ e ∈ more, e ∉ res) : Entries files (res ++ more) := by
  refine ⟨List.nodup_append.2 ⟨hres.nodup, hmore.nodup, ?_⟩, fun e he => ?_⟩
  · rintro e he d hd rfl
    exact hnew e hd he
  · rcases List.mem_append.1 he with he | he
    · exact hres.subset e he
    · exact hmore.subset e he

/-- An old file of the node may be picked a second time, as a new one was. -/
def Overlaps (files : List (File A)) (count : Nat) (now : Time) (n : Node A E k) : Prop :=
  2 ≤ count ∧ max_old count * 2 ≤ files.countP (is_old now n) ∧
    ∃ f ∈ files, is_new n f = true ∧ is_old now n f = true

omit [DecidableEq A] in
theorem pick_new_sample (h : Once files) (ds : Draws) :
    Sample (max_new count) ((files.filter (is_new n)).map entry) (pick_new files count n ds).1 := by
  unfold pick_new
  split
  · exact pick_many_sample h (by omega) ds
  · exact pick_few_sample h ds

theorem pick_old_entries (h : Once files) (hapart : ¬ Overlaps files count now n)
    (hres : Sample (max_new count) ((files.filter (is_new n)).map entry) res) (ds : Draws) :
    Entries files (res ++ (pick_old files count now n res ds).1) ∧
      (res ++ (pick_old files count now n res ds).1).length ≤ count := by
  obtain ⟨hentries, hnew⟩ := entries_of_sample hres
  have hlength := hres.length
  have hsum : max_new count + max_old count = count := by
    unfold max_new max_old
    omega
  rw [List.length_append]
  unfold pick_old
  split
  · rename_i hmany
    have hold : Sample (max_old count) ((files.filter (is_old now n)).map entry) _ :=
      pick_many_sample h (by omega) ds
    obtain ⟨hold_entries, hold_files⟩ := entries_of_sample hold
    have hcount := hold.length
    refine ⟨hentries.append hold_entries fun e he hmem => ?_, by omega⟩
    -- It would be a file that is both new and old.
    obtain ⟨f, hf, hisold, rfl⟩ := hold_files e he
    obtain ⟨g, hg, hisnew, hkey⟩ := hnew _ hmem
    have hsame : g = f := by
      apply eq_of_key h hg hf
      rw [← key_entry, ← key_entry, hkey]
    refine hapart ⟨?_, hmany, f, hf, hsame ▸ hisnew, hisold⟩
    have hpos : 0 < res.length := List.length_pos_of_mem hmem
    unfold max_new at hlength
    omega
  · have hold : Sample (max_old count)
        ((files.filter fun f => is_old now n f && !has res f).map entry) _ := pick_few_sample h ds
    obtain ⟨hold_entries, hold_files⟩ := entries_of_sample hold
    have hcount := hold.length
    refine ⟨hentries.append hold_entries fun e he hmem => ?_, by omega⟩
    obtain ⟨f, hf, hnot, rfl⟩ := hold_files e he
    have hhas := (hentries.mem_iff h hf).2 hmem
    simp [hhas] at hnot

theorem picked_entries (h : Once files) (hapart : ¬ Overlaps files count now n) (ds : Draws) :
    Entries files (picked files count now n ds) ∧
      (picked files count now n ds).length = min count files.length := by
  obtain ⟨hentries, hroom⟩ :=
    pick_old_entries h hapart (pick_new_sample h ds) (pick_new files count n ds).2
  unfold picked
  simp only
  generalize (pick_new files count n ds).1 ++ (pick_old files count now n
    (pick_new files count n ds).1 (pick_new files count n ds).2).1 = res at hentries hroom ⊢
  have hleft := hentries.length_add h
  split
  · have hmore : Sample (count - res.length) ((files.filter fun f => !has res f).map entry) _ :=
      pick_few_sample h
        (pick_old files count now n (pick_new files count n ds).1 (pick_new files count n ds).2).2
    obtain ⟨hmore_entries, hmore_files⟩ := entries_of_sample hmore
    refine ⟨hentries.append hmore_entries fun e he hmem => ?_, ?_⟩
    · obtain ⟨f, hf, hnot, rfl⟩ := hmore_files e he
      have hhas := (hentries.mem_iff h hf).2 hmem
      simp [hhas] at hnot
    · rw [List.length_append, hmore.length]
      omega
  · exact ⟨hentries, by omega⟩

/-! ## The counts -/

/-- A file that was gossiped about. -/
def bump (now : Time) (f : File A) : File A :=
  { f with gossip_count := f.gossip_count + 1, last_gossip := now }

theorem gossiped_eq (h : Once files) (e : Entry A) :
    gossiped now files e =
      files.map fun f => if key e = (f.address, f.home_node) then bump now f else f := by
  induction files with
  | nil => rfl
  | cons f files ih =>
    obtain ⟨hnot, hrest⟩ := List.nodup_cons.1 h
    have hkey : (f.address = e.1 ∧ e.2.2 = f.home_node) ↔ key e = (f.address, f.home_node) := by
      simp [key, Prod.ext_iff, eq_comm]
    simp only [gossiped, hkey, List.map_cons]
    split
    · rename_i heq
      congr 1
      -- No other file has this key.
      refine (List.map_id' files).symm.trans (List.map_congr_left fun g hg => ?_)
      rw [if_neg]
      rintro heq'
      exact hnot (List.mem_map.2 ⟨g, hg, heq'.symm.trans heq⟩)
    · rw [ih hrest]

omit [DecidableEq A] in
theorem once_map {g : File A → File A}
    (hg : ∀ f, ((g f).address, (g f).home_node) = (f.address, f.home_node)) (h : Once files) :
    Once (files.map g) := by
  have hkeys : (fun f : File A => (f.address, f.home_node)) ∘ g =
      fun f => (f.address, f.home_node) := funext hg
  unfold Once
  rw [List.map_map, hkeys]
  exact h

theorem foldl_gossiped (h : Once files) (hres : (res.map key).Nodup) :
    res.foldl (gossiped now) files = files.map fun f => if has res f then bump now f else f := by
  induction res generalizing files with
  | nil => simp [has]
  | cons e res ih =>
    obtain ⟨hnot, hrest⟩ := List.nodup_cons.1 hres
    rw [List.foldl_cons, gossiped_eq h]
    rw [ih (once_map (fun f => by split <;> rfl) h) hrest, List.map_map]
    apply List.map_congr_left
    intro f hf
    by_cases hkey : key e = (f.address, f.home_node)
    · have hhas : has res (bump now f) = false := by
        rw [← Bool.not_eq_true, has_iff]
        rintro ⟨d, hd, hkeyd⟩
        exact hnot (List.mem_map.2 ⟨d, hd, hkeyd.trans hkey.symm⟩)
      have hboth : has (e :: res) f = true := has_iff.2 ⟨e, List.mem_cons_self, hkey⟩
      simp [hkey, hhas, hboth]
    · have hsame : has (e :: res) f = has res f := by
        rw [Bool.eq_iff_iff, has_iff, has_iff]
        simp [hkey]
      simp [hkey, hsame]

/-- What a batch has to be: as many entries as there can be, of the files as they were seen, each of
them once, and each of these files counts it once. -/
structure Full (count : Nat) (now : Time) (n : Node A E k) (res : List (Entry A))
    (n' : Node A E k) : Prop where
  length : res.length = min count n.files.length
  distinct : (res.map key).Nodup
  entries : ∀ e ∈ res, ∃ f ∈ n.files, entry (refresh now n f) = e
  counted : n'.files = n.files.map fun f =>
    if key (entry f) ∈ res.map key then bump now (refresh now n f) else refresh now n f

omit [DecidableEq A] in
theorem Entries.keys_nodup (hres : Entries files res) (h : Once files) : (res.map key).Nodup := by
  refine List.Nodup.map_on ?_ hres.nodup
  intro e he d hd hkey
  obtain ⟨f, hf, rfl⟩ := hres.subset e he
  obtain ⟨g, hg, rfl⟩ := hres.subset d hd
  rw [eq_of_key h hf hg hkey]

theorem refresh_key (now : Time) (n : Node A E k) (f : File A) :
    ((refresh now n f).address, (refresh now n f).home_node) = (f.address, f.home_node) := by
  unfold refresh
  split <;> rfl

theorem full_of_apart (h : n.keys.Nodup)
    (hapart : ¬ Overlaps (n.files.map (refresh now n)) count now n) (ds : Draws) :
    Full count now n (pickFiles count now n ds).1 (pickFiles count now n ds).2 := by
  have honce : Once (n.files.map (refresh now n)) := once_map (refresh_key now n) h
  obtain ⟨hentries, hlength⟩ := picked_entries honce hapart ds
  have hdistinct := hentries.keys_nodup honce
  refine ⟨hlength.trans (by rw [List.length_map]), hdistinct, fun e he => ?_, ?_⟩
  · obtain ⟨f, hf, rfl⟩ := hentries.subset e he
    obtain ⟨g, hg, rfl⟩ := List.mem_map.1 hf
    exact ⟨g, hg, rfl⟩
  · refine (foldl_gossiped honce hdistinct).trans ?_
    rw [List.map_map]
    apply List.map_congr_left
    intro f hf
    have hhas : has (pickFiles count now n ds).1 (refresh now n f) = true ↔
        key (entry f) ∈ (pickFiles count now n ds).1.map key := by
      rw [has_iff, refresh_key, key_entry, List.mem_map]
    simp only [Function.comp_apply, ← hhas]
    rfl

theorem node_pickFiles_files (now : Time) (n : Node A E k) (keys : List (A × A)) :
    (n.pickFiles keys now).2.files = (n.files.map (refresh now n)).map fun f =>
      if (f.address, f.home_node) ∈ keys then bump now f else f := rfl

theorem Full.refines
    (h : Full count now n (pickFiles count now n ds).1 (pickFiles count now n ds).2) :
    (pickFiles count now n ds).2 =
      (n.pickFiles ((pickFiles count now n ds).1.map key) now).2 := by
  have hfiles : (pickFiles count now n ds).2.files =
      (n.pickFiles ((pickFiles count now n ds).1.map key) now).2.files := by
    rw [h.counted, node_pickFiles_files, List.map_map]
    apply List.map_congr_left
    intro f _
    simp only [Function.comp_apply, refresh_key, key_entry]
    congr
  exact congrArg (fun files => { n with files := files }) hfiles

/-! ## An old file is picked again -/

theorem exists_twice (hoverlap : Overlaps files count now n) :
    ∃ ds, ¬ ((picked files count now n ds).map key).Nodup := by
  obtain ⟨hcount, hmany, f, hf, hisnew, hisold⟩ := hoverlap
  have hnew : entry f ∈ (files.filter (is_new n)).map entry :=
    List.mem_map_of_mem (List.mem_filter.2 ⟨hf, hisnew⟩)
  have hold : entry f ∈ (files.filter (is_old now n)).map entry :=
    List.mem_map_of_mem (List.mem_filter.2 ⟨hf, hisold⟩)
  obtain ⟨ds, hds⟩ : ∃ ds, ∀ rest, entry f ∈ (pick_new files count n (ds ++ rest)).1 ∧
      (pick_new files count n (ds ++ rest)).2 = rest := by
    have hpos : 0 < max_new count := by
      unfold max_new
      omega
    unfold pick_new
    split
    · rename_i hle
      simp only [pick_many_eq _ (by omega : max_new count ≤ files.countP (is_new n))]
      refine exists_pick_n hpos ?_ hnew
      rw [List.length_map, ← List.countP_eq_length_filter]
      omega
    · exact exists_some_of hpos hnew
  have hmany_eq : ∀ es, pick_many (is_old now n) (max_old count) files es =
      pick_n (max_old count) ((files.filter (is_old now n)).map entry) es :=
    fun es => pick_many_eq es (by omega)
  obtain ⟨es, hes⟩ : ∃ es, entry f ∈ (pick_many (is_old now n) (max_old count) files es).1 := by
    have hpos : 0 < max_old count := by
      unfold max_old
      omega
    obtain ⟨es, hes⟩ := exists_pick_n hpos (n := max_old count)
      (by rw [List.length_map, ← List.countP_eq_length_filter]; omega) hold
    refine ⟨es, ?_⟩
    rw [hmany_eq]
    simpa using (hes []).1
  obtain ⟨hin, hrest⟩ := hds es
  have hagain : entry f ∈ (pick_old files count now n (pick_new files count n (ds ++ es)).1
      (pick_new files count n (ds ++ es)).2).1 := by
    rw [hrest, pick_old, if_pos hmany]
    exact hes
  refine ⟨ds ++ es, fun hnodup => ?_⟩
  have htwice : ¬ (((pick_new files count n (ds ++ es)).1 ++
      (pick_old files count now n (pick_new files count n (ds ++ es)).1
        (pick_new files count n (ds ++ es)).2).1).map key).Nodup := by
    rw [List.map_append, List.nodup_append]
    rintro ⟨-, -, hdisjoint⟩
    exact hdisjoint _ (List.mem_map_of_mem hin) _ (List.mem_map_of_mem hagain) rfl
  unfold picked at hnodup
  simp only at hnodup
  split at hnodup
  · rw [List.map_append] at hnodup
    exact htwice (List.nodup_append.1 hnodup).1
  · exact htwice hnodup

theorem overlaps_refresh : Overlaps (n.files.map (refresh now n)) count now n ↔
    Overlaps n.files count now n := by
  have hnew : ∀ f, is_new n (refresh now n f) = is_new n f := by
    intro f
    unfold refresh
    split <;> rfl
  have hold : ∀ f, is_old now n (refresh now n f) = is_old now n f := by
    intro f
    unfold refresh
    split <;> rfl
  unfold Overlaps
  rw [List.countP_map, show is_old now n ∘ refresh now n = is_old now n from funext hold]
  simp [hnew, hold]

/-- A batch is full and has no file twice, whatever is drawn, unless there are many old files of
the node and one of them is new. -/
theorem batches_are_full_iff (count : Nat) (now : Time) {n : Node A E k} (h : n.keys.Nodup) :
    (∀ ds, Full count now n (pickFiles count now n ds).1 (pickFiles count now n ds).2) ↔
      ¬ Overlaps n.files count now n := by
  constructor
  · intro hfull hoverlap
    obtain ⟨ds, hds⟩ := exists_twice (overlaps_refresh.2 hoverlap)
    exact hds (hfull ds).distinct
  · intro hapart
    exact full_of_apart h fun hoverlap => hapart (overlaps_refresh.1 hoverlap)

end

/-- Files of the node that are all new, and all old when `now` is late. -/
def forgotten : Node Nat Nat 1 :=
  { _self := 0, _config := { group_of := fun _ => Fin.last 0 },
    files := [⟨7, 0, 0, 0, 0⟩, ⟨8, 0, 0, 0, 0⟩] }

theorem a_batch_of_recent_files_is_full :
    Full 2 0 forgotten (pickFiles 2 0 forgotten [1]).1 (pickFiles 2 0 forgotten [1]).2 :=
  (batches_are_full_iff 2 0 (by decide)).2 (by unfold Overlaps; decide) [1]

/-- A file is picked as a new one, and then as an old one. -/
theorem a_file_is_picked_twice :
    (pickFiles 2 50000 forgotten [0, 0]).1 = [(7, 50000, 0), (7, 50000, 0)] ∧
      ¬ ∀ (count : Nat) (now : Time) (n : Node Nat Nat 1) (ds : Draws), n.keys.Nodup →
        Full count now n (pickFiles count now n ds).1 (pickFiles count now n ds).2 := by
  have htwice : (pickFiles 2 50000 forgotten [0, 0]).1 = [(7, 50000, 0), (7, 50000, 0)] := by
    decide
  refine ⟨htwice, fun h => ?_⟩
  have hdistinct := (h 2 50000 forgotten [0, 0] (by decide)).distinct
  rw [htwice] at hdistinct
  exact absurd hdistinct (by decide)

end memo.overlay.kelips.picks
