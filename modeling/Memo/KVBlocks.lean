-- The value blocks of the key-value store. The block that an operation replaces is deleted
-- before the root block is updated: the root map may then designate a block that is missing, as
-- long as a request is on its way to replace it. A request that gives up leaves it so.
import Memo.KVAtomic

open stores runs

namespace memo.kvs

variable {A D : Type} [DecidableEq A]

/-! ## Requests and their blocks -/

/-- The value block that a request inserted, until it returns. -/
def Request.fresh (r : Request A D) : Option A :=
  match r.call with
  | .root op | .drop op _ _ _ | .update op _ _ | .undo op _ => op.store.address
  | _ => none

/-- The same, while it may still be stored in the root map. -/
def Request.storing (r : Request A D) : Option A :=
  match r.call with
  | .root op | .drop op _ _ _ | .update op _ _ => op.store.address
  | _ => none

/-- The value block that a request is on its way to replace, and its key. -/
def Request.owed (r : Request A D) : Option (Key × A) :=
  match r.call with
  | .drop op block _ _ | .update op block _ => (held block.map op.key).map fun a => (op.key, a)
  | _ => none

/-- The value block that the root block designates no more once the update is accepted. -/
def Request.replaced (r : Request A D) : Option A :=
  match r.call with
  | .update op block _ => held block.map op.key
  | _ => none

namespace Cluster

/-- No request is in progress, and each key of the root map has a value block that exists. -/
def Readable (s : Cluster A D) : Prop :=
  s.requests = [] → ∀ key desc, find s.root.map key = some desc →
    ∃ a, desc = { current := some { address := some a } } ∧ (find s.values a).isSome

/-- No request is in progress, and the value blocks are those of the root map. -/
def Exact (s : Cluster A D) : Prop :=
  s.requests = [] → ∀ a, (find s.values a).isSome ↔ ∃ key, held s.root.map key = some a

/-- The update of the root block fails, after the value block that it replaces was deleted, which
the root map still designates and no other request is on its way to replace. -/
def Strands (s : Cluster A D) : Action A D → Bool
  | .fails i _ =>
    match s.requests[i]? with
    | some r =>
      match r.call, r.owed with
      | .update .., some (key, a) =>
        decide (held s.root.map key = some a) && (find s.values a).isNone &&
          (s.requests.eraseIdx i).all fun r => decide (r.owed ≠ some (key, a))
      | _, _ => false
    | none => false
  | _ => false

/-- A call fails, but for those of a fetch. -/
def Fails (s : Cluster A D) : Action A D → Bool
  | .fails i _ =>
    match s.requests[i]? with
    | some r =>
      match r.call with
      | .fetch_root .. | .fetch_value .. => false
      | _ => true
    | none => false
  | _ => false

end Cluster

open Cluster

/-! ## Where value blocks are -/

/-- The value blocks, those of the root maps and those of the requests. `requests` is the list of
those in progress. -/
structure Placed (values : Table A D) (roots : List (KeyMap A)) (inserted : List (A × D))
    (requests : List (Request A D)) : Prop where
  value_known : ∀ a, (find values a).isSome → a ∈ inserted.map Prod.fst
  root_known : ∀ km ∈ roots, ∀ key a, held km key = some a → a ∈ inserted.map Prod.fst
  one_key : ∀ km ∈ roots, ∀ km' ∈ roots, ∀ key key' a, held km key = some a →
    held km' key' = some a → key = key'
  unused : ∀ a ∈ requests.filterMap Request.fresh, a ∈ inserted.map Prod.fst ∧
    ∀ km ∈ roots, ∀ key, held km key ≠ some a
  nodup : (requests.filterMap Request.fresh).Nodup
  storing : ∀ r ∈ requests, ∀ a, r.storing = some a → (find values a).isSome

/-- A block that the root map designates is there, or a request is on its way to replace it. -/
def Owed (values : Table A D) (root : KeyMap A) (requests : List (Request A D)) : Prop :=
  ∀ key a, held root key = some a → find values a = none → ∃ r ∈ requests, r.owed = some (key, a)

/-- A block that is there is designated by the root map, or a request inserted it. What a request
replaces when it updates the root block is not there. -/
structure Tight (values : Table A D) (root : KeyMap A) (requests : List (Request A D)) : Prop where
  kept : ∀ a, (find values a).isSome →
    (∃ key, held root key = some a) ∨ a ∈ requests.filterMap Request.fresh
  dropped : ∀ r ∈ requests, ∀ a, r.replaced = some a → find values a = none

theorem isSome_put_none {values : Table A D} {a a' : A} :
    (find (put a none values) a').isSome ↔ a' ≠ a ∧ (find values a').isSome := by
  rw [find_put]
  by_cases ha : a' = a
  · simp [ha]
  · simp [ha]

/-! ## One lemma for each kind of step -/

section

variable {values : Table A D} {roots : List (KeyMap A)} {inserted : List (A × D)}
  {before after : List (Request A D)} {r r' : Request A D} {root : KeyMap A}

variable {requests : List (Request A D)} {op : Operation A} {km : KeyMap A} {a : A}

theorem Placed.starts (h : Placed values roots inserted requests) (hr : r.fresh = none)
    (hstoring : r.storing = none) : Placed values roots inserted (requests ++ [r]) := by
  have hfresh : (requests ++ [r]).filterMap Request.fresh =
      requests.filterMap Request.fresh := by
    simp [hr]
  refine { h with unused := hfresh ▸ h.unused, nodup := hfresh ▸ h.nodup, storing := ?_ }
  intro r' hr' a ha
  rcases List.mem_append.mp hr' with hr' | hr'
  · exact h.storing r' hr' a ha
  · rw [List.mem_singleton.mp hr', hstoring] at ha
    cases ha

theorem Placed.goes (h : Placed values roots inserted (before ++ r :: after))
    (hfresh : r'.fresh = r.fresh) (hstoring : ∀ a, r'.storing = some a → r.storing = some a) :
    Placed values roots inserted (before ++ r' :: after) := by
  have heq : (before ++ r' :: after).filterMap Request.fresh =
      (before ++ r :: after).filterMap Request.fresh := by
    simp [List.filterMap_cons, hfresh]
  refine { h with unused := heq ▸ h.unused, nodup := heq ▸ h.nodup, storing := ?_ }
  intro r'' hr'' a ha
  rcases List.mem_append.mp hr'' with hmem | hmem
  · exact h.storing r'' (List.mem_append_left _ hmem) a ha
  · rcases List.mem_cons.mp hmem with rfl | hmem
    · exact h.storing r (by simp) a (hstoring a ha)
    · exact h.storing r'' (by simp [hmem]) a ha

theorem Placed.ends (h : Placed values roots inserted (before ++ r :: after)) :
    Placed values roots inserted (before ++ after) := by
  have hsub : List.Sublist ((before ++ after).filterMap Request.fresh)
      ((before ++ r :: after).filterMap Request.fresh) :=
    ((List.sublist_cons_self r after).append_left before).filterMap _
  refine { h with unused := fun a ha => h.unused a (hsub.subset ha)
                  nodup := h.nodup.sublist hsub
                  storing := fun r' hr' => h.storing r' ?_ }
  rcases List.mem_append.mp hr' with hmem | hmem
  · exact List.mem_append_left _ hmem
  · exact List.mem_append_right _ (List.mem_cons_of_mem _ hmem)

theorem Placed.deletes (h : Placed values roots inserted requests)
    (ha : ∀ r ∈ requests, r.storing ≠ some a) :
    Placed (put a none values) roots inserted requests := by
  refine { h with value_known := fun a' ha' => h.value_known a' (isSome_put_none.mp ha').2
                  storing := fun r hr a' hr' => ?_ }
  refine isSome_put_none.mpr ⟨?_, h.storing r hr a' hr'⟩
  rintro rfl
  exact ha r hr hr'

theorem isSome_put_some {a' : A} {d : D} :
    (find (put a (some d) values) a').isSome ↔ a' = a ∨ (find values a').isSome := by
  rw [find_put]
  by_cases ha : a' = a
  · simp [ha]
  · simp [ha]

theorem Placed.inserts {d : D} (h : Placed values roots inserted (before ++ r :: after))
    (ha : a ∉ inserted.map Prod.fst) (hr : r.fresh = none) (hr' : r'.fresh = some a)
    (hstoring : ∀ a', r'.storing = some a' → a' = a) :
    Placed (put a (some d) values) roots (inserted ++ [(a, d)]) (before ++ r' :: after) := by
  have hold : (before ++ r :: after).filterMap Request.fresh =
      before.filterMap Request.fresh ++ after.filterMap Request.fresh := by
    simp [hr]
  have hnew : (before ++ r' :: after).filterMap Request.fresh =
      before.filterMap Request.fresh ++ a :: after.filterMap Request.fresh := by
    simp [hr']
  have hmono : ∀ a', a' ∈ inserted.map Prod.fst → a' ∈ (inserted ++ [(a, d)]).map Prod.fst := by
    intro a' ha'
    rw [List.map_append]
    exact List.mem_append_left _ ha'
  have hself : a ∈ (inserted ++ [(a, d)]).map Prod.fst := by simp
  have hunused := h.unused
  have hnodup := h.nodup
  rw [hold] at hunused hnodup
  constructor
  · intro a' ha'
    rcases isSome_put_some.mp ha' with rfl | ha'
    · exact hself
    · exact hmono a' (h.value_known a' ha')
  · exact fun km hkm key a' hheld => hmono a' (h.root_known km hkm key a' hheld)
  · exact h.one_key
  · rw [hnew]
    intro a' ha'
    by_cases heq : a' = a
    · subst heq
      exact ⟨hself, fun km hkm key hheld => ha (h.root_known km hkm key a' hheld)⟩
    · obtain ⟨hmem, hroots⟩ := hunused a' (by simpa [heq] using ha')
      exact ⟨hmono a' hmem, hroots⟩
  · rw [hnew]
    refine (List.perm_middle.nodup_iff).mpr (List.nodup_cons.mpr ⟨?_, hnodup⟩)
    exact fun hmem => ha (hunused a hmem).1
  · intro r'' hr'' a' ha'
    rw [isSome_put_some]
    rcases List.mem_append.mp hr'' with hmem | hmem
    · exact Or.inr (h.storing r'' (by simp [hmem]) a' ha')
    · rcases List.mem_cons.mp hmem with rfl | hmem
      · exact Or.inl (hstoring a' ha')
      · exact Or.inr (h.storing r'' (by simp [hmem]) a' ha')

theorem Placed.apart (h : Placed values roots inserted (before ++ r :: after))
    (hr : r.fresh = some a) :
    a ∈ inserted.map Prod.fst ∧ (∀ km ∈ roots, ∀ key, held km key ≠ some a) ∧
      a ∉ (before ++ after).filterMap Request.fresh := by
  have heq : (before ++ r :: after).filterMap Request.fresh =
      before.filterMap Request.fresh ++ a :: after.filterMap Request.fresh := by
    simp [hr]
  have hnodup := h.nodup
  have hunused := h.unused
  rw [heq] at hnodup hunused
  obtain ⟨hmem, hroots⟩ := hunused a (by simp)
  refine ⟨hmem, hroots, ?_⟩
  rw [List.filterMap_append]
  exact (List.nodup_cons.mp ((List.perm_middle.nodup_iff).mp hnodup)).1

theorem Placed.accepts (h : Placed values roots inserted (before ++ r :: after))
    (hroot : root ∈ roots) (hr : r.fresh = op.store.address)
    (hkm : held km = op.apply (held root)) :
    Placed values (roots ++ [km]) inserted (before ++ after) := by
  have hends := h.ends
  have hheld : ∀ key a, held km key = some a →
      (key = op.key ∧ r.fresh = some a) ∨ (key ≠ op.key ∧ held root key = some a) := by
    intro key a ha
    rw [hkm, Operation.apply] at ha
    by_cases hk : key = op.key
    · rw [hk, Function.update_self] at ha
      split at ha
      · cases ha
      · exact Or.inl ⟨hk, hr.trans ha⟩
    · rw [Function.update_of_ne hk] at ha
      exact Or.inr ⟨hk, ha⟩
  have hkey : ∀ km' ∈ roots, ∀ key key' a, held km key = some a → held km' key' = some a →
      key = key' := by
    intro km' hkm' key key' a ha ha'
    rcases hheld key a ha with ⟨-, hfresh⟩ | ⟨-, hold⟩
    · exact absurd ha' ((h.apart hfresh).2.1 km' hkm' key')
    · exact h.one_key root hroot km' hkm' key key' a hold ha'
  refine { hends with root_known := ?_, one_key := ?_, unused := ?_ }
  · intro km' hkm' key a ha
    rcases List.mem_append.mp hkm' with hkm' | hkm'
    · exact hends.root_known km' hkm' key a ha
    · rw [List.mem_singleton.mp hkm'] at ha
      rcases hheld key a ha with ⟨-, hfresh⟩ | ⟨-, hold⟩
      · exact (h.apart hfresh).1
      · exact hends.root_known root hroot key a hold
  · intro km₁ hkm₁ km₂ hkm₂ key key' a ha ha'
    rcases List.mem_append.mp hkm₁ with hkm₁ | hkm₁ <;>
      rcases List.mem_append.mp hkm₂ with hkm₂ | hkm₂
    · exact hends.one_key km₁ hkm₁ km₂ hkm₂ key key' a ha ha'
    · rw [List.mem_singleton.mp hkm₂] at ha'
      exact (hkey km₁ hkm₁ key' key a ha' ha).symm
    · rw [List.mem_singleton.mp hkm₁] at ha
      exact hkey km₂ hkm₂ key key' a ha ha'
    · rw [List.mem_singleton.mp hkm₁] at ha
      rw [List.mem_singleton.mp hkm₂] at ha'
      rcases hheld key a ha with ⟨hk, hfresh⟩ | ⟨-, hold⟩
      · rcases hheld key' a ha' with ⟨hk', -⟩ | ⟨-, hold'⟩
        · exact hk.trans hk'.symm
        · exact absurd hold' ((h.apart hfresh).2.1 root hroot key')
      · exact (hkey root hroot key' key a ha' hold).symm
  · intro a ha
    obtain ⟨hmem, hroots⟩ := hends.unused a ha
    refine ⟨hmem, fun km' hkm' key hhas => ?_⟩
    rcases List.mem_append.mp hkm' with hkm' | hkm'
    · exact hroots km' hkm' key hhas
    · rw [List.mem_singleton.mp hkm'] at hhas
      rcases hheld key a hhas with ⟨-, hfresh⟩ | ⟨-, hold⟩
      · exact (h.apart hfresh).2.2 ha
      · exact hroots root hroot key hold

/-! ## What the root map designates -/

theorem Owed.mono {values' : Table A D} {requests' : List (Request A D)}
    (h : Owed values root requests)
    (hvalues : ∀ a, (find values a).isSome → (find values' a).isSome)
    (howed : ∀ key a, held root key = some a → find values' a = none →
      ∀ r ∈ requests, r.owed = some (key, a) → ∃ r' ∈ requests', r'.owed = some (key, a)) :
    Owed values' root requests' := by
  intro key a hheld hnone
  have hold : find values a = none := by
    by_contra hne
    have hsome := hvalues a (Option.isSome_iff_ne_none.mpr hne)
    rw [hnone] at hsome
    cases hsome
  obtain ⟨r, hr, hrowed⟩ := h key a hheld hold
  exact howed key a hheld hnone r hr hrowed

theorem Owed.goes (h : Owed values root (before ++ r :: after))
    (howed : ∀ key a, held root key = some a → r.owed = some (key, a) →
      r'.owed = some (key, a)) : Owed values root (before ++ r' :: after) := by
  refine h.mono (fun _ h => h) fun key a hheld _ r'' hr'' hrowed => ?_
  rcases List.mem_append.mp hr'' with hmem | hmem
  · exact ⟨r'', by simp [hmem], hrowed⟩
  · rcases List.mem_cons.mp hmem with rfl | hmem
    · exact ⟨r', by simp, howed key a hheld hrowed⟩
    · exact ⟨r'', by simp [hmem], hrowed⟩

theorem Owed.ends (h : Owed values root (before ++ r :: after))
    (howed : ∀ key a, held root key = some a → find values a = none →
      r.owed = some (key, a) → ∃ r' ∈ before ++ after, r'.owed = some (key, a)) :
    Owed values root (before ++ after) := by
  refine h.mono (fun _ h => h) fun key a hheld hnone r'' hr'' hrowed => ?_
  rcases List.mem_append.mp hr'' with hmem | hmem
  · exact ⟨r'', List.mem_append_left _ hmem, hrowed⟩
  · rcases List.mem_cons.mp hmem with rfl | hmem
    · exact howed key a hheld hnone hrowed
    · exact ⟨r'', List.mem_append_right _ hmem, hrowed⟩

theorem Owed.deletes (h : Owed values root requests)
    (ha : ∀ key, held root key = some a → ∃ r ∈ requests, r.owed = some (key, a)) :
    Owed (put a none values) root requests := by
  intro key a' hheld hnone
  by_cases heq : a' = a
  · exact heq ▸ ha key (heq ▸ hheld)
  · refine h key a' hheld ?_
    rw [find_put, Function.update_of_ne heq] at hnone
    exact hnone

theorem Owed.accepts (h : Owed values root (before ++ r :: after))
    (hkm : held km = op.apply (held root)) (hr : ∀ key a, r.owed = some (key, a) → key = op.key)
    (hstored : ∀ a, op.store.address = some a → (find values a).isSome) :
    Owed values km (before ++ after) := by
  intro key a hheld hnone
  rw [hkm, Operation.apply] at hheld
  by_cases hk : key = op.key
  · rw [hk, Function.update_self] at hheld
    split at hheld
    · cases hheld
    · have hsome := hstored a hheld
      rw [hnone] at hsome
      cases hsome
  · rw [Function.update_of_ne hk] at hheld
    obtain ⟨r', hr', howed⟩ := h key a hheld hnone
    rcases List.mem_append.mp hr' with hmem | hmem
    · exact ⟨r', List.mem_append_left _ hmem, howed⟩
    · rcases List.mem_cons.mp hmem with rfl | hmem
      · exact absurd (hr key a howed) hk
      · exact ⟨r', List.mem_append_right _ hmem, howed⟩

/-! ## What is there -/

theorem Tight.starts (h : Tight values root requests) (hr : r.replaced = none) :
    Tight values root (requests ++ [r]) where
  kept := by
    intro a ha
    rw [List.filterMap_append]
    exact (h.kept a ha).imp id (List.mem_append_left _)
  dropped := by
    intro r' hr' a ha
    rcases List.mem_append.mp hr' with hr' | hr'
    · exact h.dropped r' hr' a ha
    · rw [List.mem_singleton.mp hr', hr] at ha
      cases ha

theorem Tight.goes (h : Tight values root (before ++ r :: after))
    (hfresh : ∀ a, r.fresh = some a → r'.fresh = some a)
    (hr' : ∀ a, r'.replaced = some a → find values a = none) :
    Tight values root (before ++ r' :: after) where
  kept := by
    intro a ha
    refine (h.kept a ha).imp id fun hmem => ?_
    obtain ⟨r'', hr'', hr''fresh⟩ := List.mem_filterMap.mp hmem
    rcases List.mem_append.mp hr'' with hmem | hmem
    · exact List.mem_filterMap.mpr ⟨r'', by simp [hmem], hr''fresh⟩
    · rcases List.mem_cons.mp hmem with rfl | hmem
      · exact List.mem_filterMap.mpr ⟨r', by simp, hfresh a hr''fresh⟩
      · exact List.mem_filterMap.mpr ⟨r'', by simp [hmem], hr''fresh⟩
  dropped := by
    intro r'' hr'' a ha
    rcases List.mem_append.mp hr'' with hmem | hmem
    · exact h.dropped r'' (by simp [hmem]) a ha
    · rcases List.mem_cons.mp hmem with rfl | hmem
      · exact hr' a ha
      · exact h.dropped r'' (by simp [hmem]) a ha

theorem Tight.ends (h : Tight values root (before ++ r :: after))
    (hr : ∀ a, r.fresh = some a → find values a = none) :
    Tight values root (before ++ after) where
  kept := by
    intro a ha
    refine (h.kept a ha).imp id fun hmem => ?_
    obtain ⟨r', hr', hfresh⟩ := List.mem_filterMap.mp hmem
    rcases List.mem_append.mp hr' with hmem | hmem
    · exact List.mem_filterMap.mpr ⟨r', List.mem_append_left _ hmem, hfresh⟩
    · rcases List.mem_cons.mp hmem with rfl | hmem
      · rw [hr a hfresh] at ha
        cases ha
      · exact List.mem_filterMap.mpr ⟨r', List.mem_append_right _ hmem, hfresh⟩
  dropped := by
    intro r' hr' a ha
    rcases List.mem_append.mp hr' with hmem | hmem
    · exact h.dropped r' (by simp [hmem]) a ha
    · exact h.dropped r' (by simp [hmem]) a ha

theorem Tight.deletes (h : Tight values root requests) (a : A) :
    Tight (put a none values) root requests where
  kept := fun a' ha' => h.kept a' (isSome_put_none.mp ha').2
  dropped := by
    intro r hr a' ha'
    have hnone := h.dropped r hr a' ha'
    by_contra hne
    have hsome := (isSome_put_none.mp (Option.isSome_iff_ne_none.mpr hne)).2
    rw [hnone] at hsome
    cases hsome

theorem Tight.inserts {d : D} (h : Tight values root requests)
    (ha : a ∈ requests.filterMap Request.fresh) (hnew : ∀ r ∈ requests, r.replaced ≠ some a) :
    Tight (put a (some d) values) root requests where
  kept := by
    intro a' ha'
    rcases isSome_put_some.mp ha' with rfl | ha'
    · exact Or.inr ha
    · exact h.kept a' ha'
  dropped := by
    intro r hr a' ha'
    have hne : a' ≠ a := by
      rintro rfl
      exact hnew r hr ha'
    rw [find_put, Function.update_of_ne hne]
    exact h.dropped r hr a' ha'

theorem Tight.accepts (h : Tight values root (before ++ r :: after))
    (hkm : held km = op.apply (held root)) (hr : r.fresh = op.store.address) (hop : op.Stores)
    (hreplaced : r.replaced = held root op.key) : Tight values km (before ++ after) where
  kept := by
    intro a ha
    rcases h.kept a ha with ⟨key, hheld⟩ | hmem
    · have hk : key ≠ op.key := by
        rintro rfl
        rw [h.dropped r (by simp) a (hreplaced.trans hheld)] at ha
        cases ha
      refine Or.inl ⟨key, ?_⟩
      rw [hkm, Operation.apply, Function.update_of_ne hk]
      exact hheld
    · obtain ⟨r', hr', hfresh⟩ := List.mem_filterMap.mp hmem
      rcases List.mem_append.mp hr' with hmem | hmem
      · exact Or.inr (List.mem_filterMap.mpr ⟨r', List.mem_append_left _ hmem, hfresh⟩)
      · rcases List.mem_cons.mp hmem with rfl | hmem
        · left
          refine ⟨op.key, ?_⟩
          have haddress : op.store.address = some a := hr.symm.trans hfresh
          have hne : op.opType ≠ .DELETE := by
            intro hdelete
            rw [hop.mp hdelete] at haddress
            cases haddress
          rw [hkm, Operation.apply, Function.update_self, if_neg hne, haddress]
        · exact Or.inr (List.mem_filterMap.mpr ⟨r', List.mem_append_right _ hmem, hfresh⟩)
  dropped := by
    intro r' hr' a ha
    rcases List.mem_append.mp hr' with hmem | hmem
    · exact h.dropped r' (by simp [hmem]) a ha
    · exact h.dropped r' (by simp [hmem]) a ha

end

/-! ## Steps -/

namespace Cluster

/-- What a step keeps of the value blocks. -/
def Keeps (s s' : Cluster A D) : Prop :=
  Placed s'.values s'.roots s'.inserted s'.requests ∧
    (Owed s.values s.root.map s.requests → Owed s'.values s'.root.map s'.requests) ∧
      (Tight s.values s.root.map s.requests → Tight s'.values s'.root.map s'.requests)

omit [DecidableEq A] in
theorem split_at {s : Cluster A D} {i : Nat} {r : Request A D} (h : s.requests[i]? = some r) :
    ∃ before after, s.requests = before ++ r :: after ∧
      s.requests.eraseIdx i = before ++ after ∧
        ∀ r', s.requests.set i r' = before ++ r' :: after := by
  obtain ⟨hi, hr⟩ := List.getElem?_eq_some_iff.mp h
  refine ⟨s.requests.take i, s.requests.drop (i + 1), ?_, List.eraseIdx_eq_take_drop_succ .., ?_⟩
  · rw [← hr, ← List.drop_eq_getElem_cons hi, List.take_append_drop]
  · intro r'
    rw [List.set_eq_take_append_cons_drop, if_pos hi]

section

variable {s : Cluster A D} {i : Nat} {r : Request A D}

theorem Keeps.starts {call : Call A D}
    (hp : Placed s.values s.roots s.inserted s.requests)
    (hfresh : Request.fresh { call := call, since := s.roots.length - 1 } = none)
    (hstoring : Request.storing { call := call, since := s.roots.length - 1 } = none)
    (hreplaced : Request.replaced { call := call, since := s.roots.length - 1 } = none) :
    Keeps s (s.starts call) := by
  refine ⟨hp.starts hfresh hstoring, fun ho => ?_, fun ht => ht.starts hreplaced⟩
  refine ho.mono (fun _ h => h) fun key a _ _ r hr howed => ?_
  exact ⟨r, List.mem_append_left _ hr, howed⟩

theorem Keeps.goes {call : Call A D} (hp : Placed s.values s.roots s.inserted s.requests)
    (hr : s.requests[i]? = some r) (hfresh : Request.fresh { r with call := call } = r.fresh)
    (hstoring : ∀ a, Request.storing { r with call := call } = some a → r.storing = some a)
    (howed : ∀ key a, held s.root.map key = some a → r.owed = some (key, a) →
      Request.owed { r with call := call } = some (key, a))
    (hreplaced : ∀ a, Request.replaced { r with call := call } = some a →
      find s.values a = none) : Keeps s (s.goes i r call) := by
  obtain ⟨before, after, hsplit, -, hset⟩ := split_at hr
  unfold Keeps Cluster.goes
  dsimp only
  rw [hset]
  rw [hsplit] at hp ⊢
  exact ⟨hp.goes hfresh hstoring, fun ho => ho.goes howed,
    fun ht => ht.goes (fun a ha => hfresh.trans ha) hreplaced⟩

theorem Keeps.ends (hp : Placed s.values s.roots s.inserted s.requests)
    (hr : s.requests[i]? = some r) (hfresh : ∀ a, r.fresh = some a → find s.values a = none)
    (howed : ∀ key a, held s.root.map key = some a → r.owed ≠ some (key, a)) :
    Keeps s (s.ends i) := by
  obtain ⟨before, after, hsplit, herase, -⟩ := split_at hr
  unfold Keeps Cluster.ends
  dsimp only
  rw [herase]
  rw [hsplit] at hp ⊢
  exact ⟨hp.ends, fun ho => ho.ends fun key a hheld _ h => absurd h (howed key a hheld),
    fun ht => ht.ends hfresh⟩

variable {s' : Cluster A D} {op : Operation A} {a : A}

omit [DecidableEq A] in
theorem Sound.refused_owed (hs : s.Sound) (hr : r ∈ s.requests) {refusal : Refusal}
    (hturn : op.turn s.root.map = .error refusal)
    (hcall : r.call = .root op ∨ ∃ block km, r.call = .update op block km) {key : Key}
    (hheld : held s.root.map key = some a) : r.owed ≠ some (key, a) := by
  obtain ⟨-, hnot⟩ := turn_error hs.root_proper hturn
  have hsound := (hs.requests r hr).2
  rcases hcall with hcall | ⟨block, km, hcall⟩
  · simp [Request.owed, hcall]
  · rw [hcall] at hsound
    obtain ⟨hop, hknown, old, hold⟩ := hsound
    obtain ⟨-, hallowed, -, -⟩ := turn_ok (hs.proper _ hknown.1) hop hold
    intro howed
    simp only [Request.owed, hcall, Option.map_eq_some_iff, Prod.mk.injEq] at howed
    obtain ⟨a', ha', rfl, rfl⟩ := howed
    unfold Operation.Allowed at hnot hallowed
    cases htype : op.opType <;> simp_all

theorem Keeps.replay (hs : s.Sound) (hp : Placed s.values s.roots s.inserted s.requests)
    (hr : s.requests[i]? = some r) (hop : op.Stores)
    (hcall : r.call = .root op ∨ ∃ block km, r.call = .update op block km) :
    Keeps s (s.replay i r op s.root) := by
  have hmem := List.mem_of_getElem? hr
  have hfresh : r.fresh = op.store.address := by
    rcases hcall with hcall | ⟨block, km, hcall⟩ <;> simp [Request.fresh, hcall]
  have hstoring : r.storing = op.store.address := by
    rcases hcall with hcall | ⟨block, km, hcall⟩ <;> simp [Request.storing, hcall]
  have hkey : ∀ key a, r.owed = some (key, a) → key = op.key := by
    intro key a howed
    rcases hcall with hcall | ⟨block, km, hcall⟩
    · simp [Request.owed, hcall] at howed
    · simp only [Request.owed, hcall, Option.map_eq_some_iff, Prod.mk.injEq] at howed
      obtain ⟨a', -, hk, -⟩ := howed
      exact hk.symm
  have howed : ∀ key a, held s.root.map key = some a → r.owed = some (key, a) →
      (held s.root.map op.key).map (fun a => (op.key, a)) = some (key, a) := by
    intro key a hheld h
    rw [← hkey key a h, hheld]
    rfl
  unfold Cluster.replay
  cases hturn : op.turn s.root.map with
  | error refusal =>
    have hnot : ∀ key a, held s.root.map key = some a → r.owed ≠ some (key, a) :=
      fun key a hheld => hs.refused_owed hmem hturn hcall hheld
    unfold Cluster.refused
    dsimp only
    split
    next hdelete =>
      refine Keeps.ends hp hr (fun a ha => ?_) hnot
      rw [hfresh, hop.mp hdelete] at ha
      cases ha
    next =>
      exact Keeps.goes hp hr hfresh.symm (by simp [Request.storing])
        (fun key a hheld h => absurd h (hnot key a hheld)) (by simp [Request.replaced])
  | ok turned =>
    obtain ⟨old, km⟩ := turned
    obtain ⟨hold, -⟩ := turn_ok hs.root_proper hop hturn
    cases old with
    | none =>
      refine Keeps.goes hp hr hfresh.symm (fun a ha => hstoring.trans ha) howed fun a ha => ?_
      rw [show held s.root.map op.key = some a from ha] at hold
      cases hold
    | some a =>
      exact Keeps.goes hp hr hfresh.symm (fun a ha => hstoring.trans ha) howed
        (by simp [Request.replaced])

theorem Keeps.trans {s'' : Cluster A D} (h : Keeps s s') (h' : Keeps s' s'') : Keeps s s'' :=
  ⟨h'.1, fun ho => h'.2.1 (h.2.1 ho), fun ht => h'.2.2 (h.2.2 ht)⟩

omit [DecidableEq A] in
theorem storing_fresh (h : r.storing = some a) : r.fresh = some a := by
  unfold Request.storing at h
  unfold Request.fresh
  cases hc : r.call <;> simp_all

theorem Keeps.deletes (hp : Placed s.values s.roots s.inserted s.requests)
    (hstoring : ∀ r ∈ s.requests, r.storing ≠ some a)
    (howed : ∀ key, held s.root.map key = some a → ∃ r ∈ s.requests, r.owed = some (key, a)) :
    Keeps s { s with values := stores.put a none s.values } :=
  ⟨hp.deletes hstoring, fun ho => ho.deletes howed, fun ht => ht.deletes a⟩

theorem Keeps.drop (hs : s.Sound) (hp : Placed s.values s.roots s.inserted s.requests)
    (hr : s.requests[i]? = some r) {block : Block A} {km : KeyMap A}
    (hc : r.call = .drop op block km a) :
    Keeps s ({ s with values := stores.put a none s.values }.goes i r (.update op block km)) := by
  have hmem := List.mem_of_getElem? hr
  have hsound := (hs.requests r hmem).2
  rw [hc] at hsound
  obtain ⟨hop, hknown, hturn⟩ := hsound
  obtain ⟨hold, -⟩ := turn_ok (hs.proper _ hknown.1) hop hturn
  have hdeletes : Keeps s { s with values := stores.put a none s.values } := by
    refine Keeps.deletes hp (fun r' hr' hstoring => ?_) fun key hheld => ⟨r, hmem, ?_⟩
    · have hfresh : a ∈ s.requests.filterMap Request.fresh :=
        List.mem_filterMap.mpr ⟨r', hr', storing_fresh hstoring⟩
      exact (hp.unused a hfresh).2 block.map hknown.1 op.key hold.symm
    · have hkey : key = op.key :=
        hp.one_key _ hs.root_mem _ hknown.1 key op.key a hheld hold.symm
      simp [Request.owed, hc, hkey, ← hold]
  refine hdeletes.trans (Keeps.goes hdeletes.1 hr (by simp [Request.fresh, hc])
    (fun a ha => ?_) (fun key a _ ha => ?_) fun a' ha' => ?_)
  · simpa [Request.storing, hc] using ha
  · simpa [Request.owed, hc] using ha
  · have heq : a' = a := Option.some.inj (ha'.symm.trans hold.symm)
    rw [heq, find_put, Function.update_self]

theorem Keeps.undo (hp : Placed s.values s.roots s.inserted s.requests)
    (hroot : s.root.map ∈ s.roots) (hr : s.requests[i]? = some r) {refusal : Refusal}
    (hc : r.call = .undo op refusal) :
    Keeps s ({ s with
      values := op.store.address.elim s.values fun a => stores.put a none s.values }.ends i) := by
  have howed : ∀ key a, r.owed ≠ some (key, a) := by simp [Request.owed, hc]
  cases ha : op.store.address with
  | none =>
    exact Keeps.ends hp hr (by simp [Request.fresh, hc, ha]) fun key a _ => howed key a
  | some a =>
    have hfresh : r.fresh = some a := by simp [Request.fresh, hc, ha]
    have hdeletes : Keeps s { s with values := stores.put a none s.values } := by
      refine Keeps.deletes hp (fun r' hr' hstoring => ?_) fun key hheld => ?_
      · obtain ⟨before, after, hsplit, -, -⟩ := split_at hr
        have hp' := hp
        rw [hsplit] at hp' hr'
        refine (hp'.apart hfresh).2.2 (List.mem_filterMap.mpr ⟨r', ?_, storing_fresh hstoring⟩)
        rcases List.mem_append.mp hr' with hmem | hmem
        · exact List.mem_append_left _ hmem
        · rcases List.mem_cons.mp hmem with rfl | hmem
          · simp [Request.storing, hc] at hstoring
          · exact List.mem_append_right _ hmem
      · have hmem : a ∈ s.requests.filterMap Request.fresh :=
          List.mem_filterMap.mpr ⟨r, List.mem_of_getElem? hr, hfresh⟩
        exact absurd hheld ((hp.unused a hmem).2 s.root.map hroot key)
    refine hdeletes.trans (Keeps.ends hdeletes.1 hr (fun a' ha' => ?_) fun key a _ => howed key a)
    rw [hfresh, Option.some.injEq] at ha'
    rw [← ha', find_put, Function.update_self]

theorem Keeps.accepts (hs : s.Sound) (hp : Placed s.values s.roots s.inserted s.requests)
    (hr : s.requests[i]? = some r) {block : Block A} {km : KeyMap A}
    (hc : r.call = .update op block km) (hversion : block.version = s.root.version) :
    Keeps s ((s.update km).ends i) := by
  have hsound := (hs.requests r (List.mem_of_getElem? hr)).2
  rw [hc] at hsound
  obtain ⟨hop, hknown, old, hturn⟩ := hsound
  have hmap := hknown.2.2 hversion
  rw [hmap] at hturn
  obtain ⟨-, -, hkm, -⟩ := turn_ok hs.root_proper hop hturn
  have hfresh : r.fresh = op.store.address := by simp [Request.fresh, hc]
  have hreplaced : r.replaced = held s.root.map op.key := by simp [Request.replaced, hc, hmap]
  have hkey : ∀ key a, r.owed = some (key, a) → key = op.key := by
    intro key a howed
    simp only [Request.owed, hc, Option.map_eq_some_iff, Prod.mk.injEq] at howed
    obtain ⟨a', -, hk, -⟩ := howed
    exact hk.symm
  have hstored : ∀ a, op.store.address = some a → (find s.values a).isSome :=
    fun a ha => hp.storing r (List.mem_of_getElem? hr) a (by simp [Request.storing, hc, ha])
  obtain ⟨before, after, hsplit, herase, -⟩ := split_at hr
  unfold Keeps Cluster.ends Cluster.update
  dsimp only
  rw [herase]
  rw [hsplit] at hp ⊢
  exact ⟨hp.accepts hs.root_mem hfresh hkm, fun ho => ho.accepts hkm hkey hstored,
    fun ht => ht.accepts hkm hfresh hop hreplaced⟩

theorem Keeps.inserted (hs : s.Sound) (hp : Placed s.values s.roots s.inserted s.requests)
    (hr : s.requests[i]? = some r) {opType : OperationType} {key : Key} {value : D}
    (hc : r.call = .insert opType key value) (ha : a ∉ s.inserted.map Prod.fst) :
    Keeps s ({ s with
      values := stores.put a (some value) s.values
      inserted := s.inserted ++ [(a, value)] }.goes i r
        (.root { opType := opType, key := key, store := { address := some a } })) := by
  have hreplaced : ∀ r ∈ s.requests, r.replaced ≠ some a := by
    intro r' hr' hold
    have hsound := (hs.requests r' hr').2
    unfold Request.replaced at hold
    cases hc' : r'.call with
    | update op block km =>
      rw [hc'] at hsound hold
      exact ha (hp.root_known _ hsound.2.1.1 op.key a hold)
    | _ => simp [hc'] at hold
  obtain ⟨before, after, hsplit, -, hset⟩ := split_at hr
  unfold Keeps Cluster.goes
  dsimp only
  rw [hset]
  rw [hsplit] at hp hreplaced ⊢
  refine ⟨hp.inserts ha (by simp [Request.fresh, hc]) rfl ?_, fun ho => ?_, fun ht => ?_⟩
  · intro a' ha'
    exact (Option.some.inj ha').symm
  · have hgoes : Owed s.values s.root.map (before ++
        { r with call := Call.root { opType, key, store := { address := some a } } } ::
          after) :=
      ho.goes fun key a _ h => by simp [Request.owed, hc] at h
    exact hgoes.mono (fun a' ha' => isSome_put_some.mpr (Or.inr ha'))
      fun key a _ _ r hr h => ⟨r, hr, h⟩
  · have hgoes : Tight s.values s.root.map (before ++
        { r with call := Call.root { opType, key, store := { address := some a } } } ::
          after) :=
      ht.goes (fun a ha => by simp [Request.fresh, hc] at ha) (by simp [Request.replaced])
    refine hgoes.inserts ?_ ?_
    · exact List.mem_filterMap.mpr ⟨_, List.mem_append_right _ List.mem_cons_self, rfl⟩
    · intro r' hr' hold
      rcases List.mem_append.mp hr' with hmem | hmem
      · exact hreplaced r' (by simp [hmem]) hold
      · rcases List.mem_cons.mp hmem with rfl | hmem
        · simp [Request.replaced] at hold
        · exact hreplaced r' (by simp [hmem]) hold

theorem serve_keeps (hs : s.Sound) (hp : Placed s.values s.roots s.inserted s.requests)
    (h : s.serve i = some s') :
    Keeps s s' := by
  unfold serve at h
  split at h
  next => cases h
  next r hr =>
    have hsound := (hs.requests r (List.mem_of_getElem? hr)).2
    split at h
    next => cases h
    next op hc =>
      cases h
      rw [hc] at hsound
      exact Keeps.replay hs hp hr hsound (Or.inl hc)
    next op block km a hc =>
      cases h
      exact Keeps.drop hs hp hr hc
    next op block km hc =>
      split at h
      next hversion =>
        cases h
        exact Keeps.accepts hs hp hr hc hversion
      next =>
        cases h
        rw [hc] at hsound
        exact Keeps.replay hs hp hr hsound.1 (Or.inr ⟨block, km, hc⟩)
    next op refusal hc =>
      cases h
      exact Keeps.undo hp hs.root_mem hr hc
    next key v w hc =>
      cases h
      unfold fetch_root
      split
      · exact Keeps.goes hp hr (by simp [Request.fresh, hc]) (by simp [Request.storing])
          (by simp [Request.owed, hc]) (by simp [Request.replaced])
      · exact Keeps.ends hp hr (by simp [Request.fresh, hc]) (by simp [Request.owed, hc])
    next key v w version a hc =>
      obtain ⟨d, -, rfl⟩ := Option.map_eq_some_iff.mp h
      exact Keeps.ends hp hr (by simp [Request.fresh, hc]) (by simp [Request.owed, hc])

theorem inserts_keeps (hs : s.Sound) (hp : Placed s.values s.roots s.inserted s.requests)
    (h : s.inserts i a = some s') :
    Keeps s s' := by
  unfold inserts at h
  split at h
  next => cases h
  next r hr =>
    split at h
    next opType key value hc =>
      split at h
      · cases h
      next ha =>
        cases h
        exact Keeps.inserted hs hp hr hc ha
    next => cases h

/-- What is kept when a call fails: the map may designate a block that is missing only if the
failure strands it, and no block is left behind if it is a call of a fetch. -/
def Survives (i : Nat) (now : Int) (s s' : Cluster A D) : Prop :=
  Placed s'.values s'.roots s'.inserted s'.requests ∧
    (s.Strands (.fails i now) = false → Owed s.values s.root.map s.requests →
      Owed s'.values s'.root.map s'.requests) ∧
        (s.Fails (.fails i now) = false → Tight s.values s.root.map s.requests →
          Tight s'.values s'.root.map s'.requests)

theorem Keeps.survives {now : Int} (h : Keeps s s') : Survives i now s s' :=
  ⟨h.1, fun _ => h.2.1, fun _ => h.2.2⟩

theorem Survives.ends {now : Int} (hp : Placed s.values s.roots s.inserted s.requests)
    (hr : s.requests[i]? = some r) (hfails : s.Fails (.fails i now) = true)
    (howed : s.Strands (.fails i now) = false → ∀ key a, held s.root.map key = some a →
      find s.values a = none → r.owed = some (key, a) →
        ∃ r' ∈ s.requests.eraseIdx i, r'.owed = some (key, a)) :
    Survives i now s (s.ends i) := by
  refine ⟨?_, fun hstrands ho => ?_, fun h => by simp [hfails] at h⟩
  · obtain ⟨before, after, hsplit, herase, -⟩ := split_at hr
    unfold Cluster.ends
    dsimp only
    rw [herase]
    rw [hsplit] at hp
    exact hp.ends
  · obtain ⟨before, after, hsplit, herase, -⟩ := split_at hr
    have hother := howed hstrands
    unfold Cluster.ends
    dsimp only
    rw [herase] at hother ⊢
    rw [hsplit] at ho
    exact ho.ends hother

theorem fails_survives {now : Int} (hp : Placed s.values s.roots s.inserted s.requests)
    (h : s.fails i now = some s') :
    Survives i now s s' := by
  unfold fails at h
  split at h
  next => cases h
  next r hr =>
    split at h
    next opType key value hc =>
      cases h
      exact Survives.ends hp hr (by simp [Fails, hr, hc]) (by simp [Request.owed, hc])
    next op hc =>
      cases h
      exact Survives.ends hp hr (by simp [Fails, hr, hc]) (by simp [Request.owed, hc])
    next op block km a hc =>
      cases h
      obtain ⟨before, after, hsplit, -, hset⟩ := split_at hr
      refine ⟨?_, fun _ ho => ?_, fun h => by simp [Fails, hr, hc] at h⟩
      · unfold Cluster.goes
        dsimp only
        rw [hset]
        rw [hsplit] at hp
        exact hp.goes (by simp [Request.fresh, hc]) (by simp [Request.storing, hc])
      · unfold Cluster.goes
        dsimp only
        rw [hset]
        rw [hsplit] at ho
        exact ho.goes fun key a _ h => by simpa [Request.owed, hc] using h
    next op block km hc =>
      cases h
      refine Survives.ends hp hr (by simp [Fails, hr, hc]) fun hstrands key a hheld hnone ho => ?_
      simpa [Strands, hr, hc, ho, hheld, hnone] using hstrands
    next op refusal hc =>
      cases h
      exact Survives.ends hp hr (by simp [Fails, hr, hc]) (by simp [Request.owed, hc])
    next key v w hc =>
      cases h
      exact Keeps.survives
        (Keeps.ends hp hr (by simp [Request.fresh, hc]) (by simp [Request.owed, hc]))
    next key v w version a hc =>
      refine Keeps.survives ?_
      split_ifs at h <;> cases h
      · exact Keeps.goes hp hr (by simp [Request.fresh, hc]) (by simp [Request.storing])
          (by simp [Request.owed, hc]) (by simp [Request.replaced])
      · exact Keeps.ends hp hr (by simp [Request.fresh, hc]) (by simp [Request.owed, hc])
      · exact Keeps.ends hp hr (by simp [Request.fresh, hc]) (by simp [Request.owed, hc])

/-- A step that strands nothing keeps a request on its way to replace each block that is missing,
and a step in which no call of the value store fails leaves no block behind. -/
theorem step_survives {act : Action A D} (hs : s.Sound)
    (hp : Placed s.values s.roots s.inserted s.requests) (h : s.step act = some s') :
    Placed s'.values s'.roots s'.inserted s'.requests ∧
      (s.Strands act = false → Owed s.values s.root.map s.requests →
        Owed s'.values s'.root.map s'.requests) ∧
          (s.Fails act = false → Tight s.values s.root.map s.requests →
            Tight s'.values s'.root.map s'.requests) := by
  have hkeeps : Keeps s s' → Placed s'.values s'.roots s'.inserted s'.requests ∧
      (s.Strands act = false → Owed s.values s.root.map s.requests →
        Owed s'.values s'.root.map s'.requests) ∧
          (s.Fails act = false → Tight s.values s.root.map s.requests →
            Tight s'.values s'.root.map s'.requests) :=
    fun h => ⟨h.1, fun _ => h.2.1, fun _ => h.2.2⟩
  have hsame : Keeps s s := ⟨hp, id, id⟩
  have hput : ∀ opType key value, Keeps s (s.put opType key value) := by
    intro opType key value
    unfold Cluster.put
    split
    · exact hsame
    · exact hsame
    · exact Keeps.starts hp rfl rfl rfl
  cases act with
  | Insert key value =>
    cases h
    exact hkeeps (hput _ _ _)
  | Update key value =>
    cases h
    exact hkeeps (hput _ _ _)
  | Upsert key value =>
    cases h
    exact hkeeps (hput _ _ _)
  | Delete key =>
    cases h
    refine hkeeps ?_
    unfold Cluster.Delete
    split
    · exact hsame
    · exact Keeps.starts hp rfl rfl rfl
  | Fetch key now =>
    cases h
    refine hkeeps ?_
    unfold Cluster.Fetch
    split
    · exact hsame
    · exact Keeps.starts hp rfl rfl rfl
  | serve i => exact hkeeps (serve_keeps hs hp h)
  | inserts i a => exact hkeeps (inserts_keeps hs hp h)
  | fails i now => exact fails_survives hp h

end

/-! ## Runs -/

theorem new_server_placed (version : Int) :
    Placed (NewServer version : Cluster A D).values (NewServer version : Cluster A D).roots
      (NewServer version : Cluster A D).inserted (NewServer version : Cluster A D).requests := by
  have hempty : ∀ km ∈ (NewServer version : Cluster A D).roots, ∀ key, held km key = none := by
    intro km hkm key
    rw [List.mem_singleton.mp hkm]
    rfl
  constructor
  · intro a ha
    simp [NewServer, find] at ha
  · intro km hkm key a ha
    rw [hempty km hkm] at ha
    cases ha
  · intro km hkm km' _ key key' a ha
    rw [hempty km hkm] at ha
    cases ha
  · simp [NewServer]
  · simp [NewServer]
  · simp [NewServer]

theorem run_placed {version : Int} {ok : Cluster A D → Action A D → Prop}
    {acts : List (Action A D)} {s : Cluster A D}
    (hrun : Run step ok (NewServer version) acts s) :
    s.Sound ∧ Placed s.values s.roots s.inserted s.requests := by
  refine hrun.invariant
    (I := fun s => s.Sound ∧ Placed s.values s.roots s.inserted s.requests)
    ⟨new_server_sound version, new_server_placed version⟩ ?_
  rintro s act s' ⟨hs, hp⟩ - hstep
  exact ⟨hs.step hstep, (step_survives hs hp hstep).1⟩

theorem run_owed {version : Int} {ok : Cluster A D → Action A D → Prop}
    {acts : List (Action A D)} {s : Cluster A D}
    (hrun : Run step ok (NewServer version) acts s)
    (hok : ∀ s act, ok s act → s.Strands act = false) :
    Owed s.values s.root.map s.requests := by
  induction hrun with
  | nil =>
    intro key a ha
    cases ha
  | snoc hrun hstep hs ih =>
    obtain ⟨hsound, hp⟩ := run_placed hrun
    exact (step_survives hsound hp hs).2.1 (hok _ _ hstep) ih

theorem not_strands {s : Cluster A D} {act : Action A D} (h : s.Fails act = false) :
    s.Strands act = false := by
  unfold Fails at h
  unfold Strands
  cases act with
  | fails i now =>
    dsimp only at h ⊢
    split
    next r hr =>
      rw [hr] at h
      split
      next hc _ => simp [hc] at h
      next => rfl
    next => rfl
  | _ => rfl

/-- Each key stays readable, in a run in which no failure strands a block. -/
theorem every_key_is_readable_while_nothing_is_stranded {version : Int}
    {acts : List (Action A D)} {s : Cluster A D}
    (hrun : Run step (fun s act => s.Strands act = false) (NewServer version) acts s) :
    s.Readable := by
  obtain ⟨hs, -⟩ := run_placed hrun
  have howed := run_owed hrun fun _ _ h => h
  intro hidle key desc hfind
  obtain ⟨a, rfl⟩ := hs.root_proper key desc hfind
  refine ⟨a, rfl, ?_⟩
  by_contra hne
  have hheld : held s.root.map key = some a := by
    unfold held
    rw [hfind]
    rfl
  obtain ⟨r, hr, -⟩ := howed key a hheld (Option.not_isSome_iff_eq_none.mp hne)
  rw [hidle] at hr
  cases hr

/-- The first update of the root block fails, and the second put succeeds. -/
theorem every_key_is_readable_one_failure :
    ∃ s : Cluster Nat Nat, s.Readable ∧ s.requests.length = 0 ∧
      find s.root.map ['k'] = some { current := some { address := some 11 } } := by
  have hrun : ((exec step (fun s act => s.Strands act = false) (NewServer 0)
      [.Insert ['k'] (some 1), .inserts 0 10, .serve 0, .fails 0, .Upsert ['k'] (some 2),
        .inserts 0 11, .serve 0, .serve 0]).map fun s : Cluster Nat Nat =>
          (s.requests.length, find s.root.map ['k'])) =
            some (0, some { current := some { address := some 11 } }) := by decide
  obtain ⟨s, hs, heq⟩ := Run.of_exec_map hrun
  rw [Prod.mk.injEq] at heq
  exact ⟨s, every_key_is_readable_while_nothing_is_stranded hs, heq⟩

/-- The value of a key is replaced, and the update of the root block fails. -/
theorem a_failed_update_loses_the_value :
    ¬ ∀ (version : Int) (acts : List (Action Nat Nat)) (s : Cluster Nat Nat),
      Run step anyStep (NewServer version) acts s → s.Readable := by
  intro h
  have hrun : ((exec step anyStep (NewServer 0)
      [.Upsert ['k'] (some 1), .inserts 0 10, .serve 0, .serve 0, .Upsert ['k'] (some 2),
        .inserts 0 11, .serve 0, .serve 0, .fails 0]).map fun s : Cluster Nat Nat =>
          (s.requests.length, find s.root.map ['k'], find s.values 10)) =
            some (0, some { current := some { address := some 10 } }, none) := by decide
  obtain ⟨s, hs, heq⟩ := Run.of_exec_map hrun
  simp only [Prod.mk.injEq] at heq
  obtain ⟨hidle, hfind, hnone⟩ := heq
  obtain ⟨a, heq, hsome⟩ := h _ _ s hs (List.length_eq_zero_iff.mp hidle) ['k'] _ hfind
  cases heq
  rw [hnone] at hsome
  cases hsome

/-- No value block is leaked or missing, in a run in which no call fails. -/
theorem no_value_block_is_leaked {version : Int} {acts : List (Action A D)} {s : Cluster A D}
    (hrun : Run step (fun s act => s.Fails act = false) (NewServer version) acts s) :
    s.Exact := by
  have htight : Tight s.values s.root.map s.requests := by
    induction hrun with
    | nil => exact ⟨fun a ha => by simp [NewServer, find] at ha, by simp [NewServer]⟩
    | snoc hrun hstep hs ih =>
      obtain ⟨hsound, hp⟩ := run_placed hrun
      exact (step_survives hsound hp hs).2.2 hstep ih
  have howed := run_owed hrun fun _ _ h => not_strands h
  intro hidle a
  constructor
  · intro ha
    refine (htight.kept a ha).resolve_right ?_
    simp [hidle]
  · rintro ⟨key, hheld⟩
    by_contra hne
    obtain ⟨r, hr, -⟩ := howed key a hheld (Option.not_isSome_iff_eq_none.mp hne)
    rw [hidle] at hr
    cases hr

/-- Two insertions of a key: the second one conflicts and is refused. -/
theorem no_value_block_is_leaked_two_insertions :
    ∃ s : Cluster Nat Nat, s.Exact ∧ s.requests.length = 0 ∧ find s.values 10 = some 1 ∧
      find s.values 11 = none := by
  have hrun : ((exec step (fun s act => s.Fails act = false) (NewServer 0)
      [.Insert ['k'] (some 1), .Insert ['k'] (some 2), .inserts 0 10, .inserts 1 11, .serve 0,
        .serve 1, .serve 0, .serve 0, .serve 0]).map fun s : Cluster Nat Nat =>
          (s.requests.length, find s.values 10, find s.values 11)) = some (0, some 1, none) := by
    decide
  obtain ⟨s, hs, heq⟩ := Run.of_exec_map hrun
  simp only [Prod.mk.injEq] at heq
  exact ⟨s, no_value_block_is_leaked hs, heq⟩

end Cluster

end memo.kvs
