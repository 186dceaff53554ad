-- Two nodes with caches of different sizes, side by side: the same calls give
-- the same results and the same storage. Each call finds a dropped acceptor
-- again in the storage; only `propagate` needs that the acceptor stays as it is.
import Memo.Elections

open ops athena.paxos

namespace memo.LocalPeer

variable {B A R : Type}
variable {d : Server B A} {q : Finset A} {p : Proposal A}

/-! ## Two caches -/

variable {s t : LocalPeer B A} {a : A} {i : Nat}

theorem mem_of_keys {l : List (A × Server B A)} {e e' : A × Server B A}
    (hk : (l.map (·.1)).Nodup) (he : e ∈ l) (he' : e' ∈ l) (ha : e.1 = e'.1) : e = e' :=
  List.inj_on_of_nodup_map hk he he' ha

variable [LinearOrder A]

theorem cached_iff (hk : (s.addresses.map (·.1)).Nodup) :
    s.cached a = some d ↔ (a, d) ∈ s.addresses := by
  constructor
  · exact mem_of_cached
  · intro hmem
    cases hc : s.cached a with
    | none =>
      unfold cached at hc
      rw [Option.map_eq_none_iff, List.find?_eq_none] at hc
      exact absurd (hc (a, d) hmem) (by simp)
    | some d' =>
      have := mem_of_keys hk (mem_of_cached hc) hmem rfl
      rw [(Prod.mk.inj this).2]

theorem cached_none {e : A × Server B A} (hc : s.cached a = none) (he : e ∈ s.addresses) :
    e.1 ≠ a := by
  intro ha
  unfold cached at hc
  rw [Option.map_eq_none_iff, List.find?_eq_none] at hc
  exact absurd (hc e he) (by simp [ha])

/-- Two nodes that store the same. The cache of the first is part of the cache of the second: it
has room for no acceptor but the one in use, or the second has room for `i` more. -/
structure Beside (i : Nat) (s t : LocalPeer B A) : Prop where
  id : s.id = t.id
  version : s.version = t.version
  storage : s.storage = t.storage
  keys : (s.addresses.map (·.1)).Nodup
  keys' : (t.addresses.map (·.1)).Nodup
  within : ∀ e ∈ s.addresses, e ∈ t.addresses
  fits : (s.max_addresses_size = 0 ∧ s.addresses.length ≤ 1) ∨
    t.addresses.length + i ≤ t.max_addresses_size

theorem Beside.cached (h : Beside i s t) (hc : s.cached a = some d) : t.cached a = some d :=
  (cached_iff h.keys').mpr (h.within _ (mem_of_cached hc))

omit [LinearOrder A] in
theorem Beside.less (h : Beside (i + 1) s t) : Beside i s t :=
  { h with fits := h.fits.imp_right fun h => by omega }

theorem keys_use (hk : (s.addresses.map (·.1)).Nodup) :
    ((s.use a d).addresses.map (·.1)).Nodup := by
  simp only [use, List.map_append, List.map_cons, List.map_nil]
  apply List.Nodup.append
  · exact hk.sublist (List.filter_sublist.map _)
  · simp
  · simp only [List.disjoint_singleton, List.mem_map, List.mem_filter]
    rintro ⟨e, ⟨-, hne⟩, ha⟩
    simp [ha] at hne

theorem mem_use {e : A × Server B A} :
    e ∈ (s.use a d).addresses ↔ e = (a, d) ∨ e ∈ s.addresses ∧ e.1 ≠ a := by
  simp [use, or_comm]

theorem length_use {d' : Server B A} (hd : (a, d') ∈ s.addresses) :
    (s.use a d).addresses.length ≤ s.addresses.length := by
  have : (s.addresses.filter (·.1 ≠ a)).length < s.addresses.length := by
    rw [List.length_filter_lt_length_iff_exists]
    exact ⟨_, hd, by simp⟩
  simp only [use, List.length_append, List.length_singleton]
  omega

theorem Beside.use {d' : Server B A} (h : Beside i s t) (hd : (a, d') ∈ s.addresses) :
    Beside i (s.use a d) (t.use a d) := by
  have hs := length_use (d := d) hd
  have ht := length_use (d := d) (h.within _ hd)
  refine { h with keys := keys_use h.keys, keys' := keys_use h.keys', within := ?_, fits := ?_ }
  · intro e he
    rw [mem_use] at he ⊢
    exact he.imp_right fun he => ⟨h.within e he.1, he.2⟩
  · rcases h.fits with ⟨hm, hl⟩ | hl
    · exact Or.inl ⟨hm, hs.trans hl⟩
    · exact Or.inr (le_trans (by omega) hl)

theorem keys_load (hk : (s.addresses.map (·.1)).Nodup) (hc : s.cached a = none) :
    ((_load_decision a d s).addresses.map (·.1)).Nodup := by
  apply List.Nodup.sublist ((unload_suffix _).sublist.map _)
  rw [List.map_append]
  apply List.Nodup.append hk
  · simp
  · simp only [List.map_cons, List.map_nil, List.disjoint_singleton, List.mem_map]
    rintro ⟨e, he, ha⟩
    exact cached_none hc he ha

theorem mem_load : (a, d) ∈ (_load_decision a d s).addresses :=
  mem_unload_of_used (by simp) (by simp)

theorem of_mem_load {e : A × Server B A} (he : e ∈ (_load_decision a d s).addresses) :
    e = (a, d) ∨ e ∈ s.addresses := by
  have := (unload_suffix _).subset he
  rw [List.mem_append, List.mem_singleton] at this
  exact this.symm

theorem unload_of_no_room {l : List (A × Server B A)} (hl : l.length ≤ 1)
    (hc : ∀ e ∈ l, e.1 ≠ a) : unload 0 (·.1 = a) 0 (l ++ [(a, d)]) = [(a, d)] := by
  cases l with
  | nil => simp [unload]
  | cons e rest =>
    have hr : rest = [] := List.eq_nil_of_length_eq_zero (by rw [List.length_cons] at hl; omega)
    have he : e.1 ≠ a := hc e List.mem_cons_self
    simp [hr, unload, he]

theorem Beside.within_load {e : A × Server B A} (h : Beside i s t) (hs : s.cached a = none)
    (he : e ∈ (_load_decision a d s).addresses) : e = (a, d) ∨ e ∈ t.addresses ∧ e.1 ≠ a := by
  rcases of_mem_load he with he | he
  · exact Or.inl he
  · exact Or.inr ⟨h.within e he, cached_none hs he⟩

theorem length_load_no_room (hm : s.max_addresses_size = 0) (hl : s.addresses.length ≤ 1)
    (hs : s.cached a = none) : (_load_decision a d s).addresses = [(a, d)] := by
  change unload s.max_addresses_size _ 0 (s.addresses ++ [(a, d)]) = _
  rw [hm]
  exact unload_of_no_room hl fun e he => cached_none hs he

theorem Beside.load (h : Beside (i + 1) s t) (hs : s.cached a = none) (ht : t.cached a = none) :
    Beside i (_load_decision a d s) (_load_decision a d t) := by
  refine { h with
    keys := keys_load h.keys hs
    keys' := keys_load h.keys' ht
    within := ?_
    fits := ?_ }
  · intro e he
    rcases h.fits with ⟨hm, hl⟩ | hl
    · rw [length_load_no_room hm hl hs, List.mem_singleton] at he
      rw [he]
      exact mem_load
    · rw [load_decision_of_room (by omega), List.mem_append, List.mem_singleton]
      exact (h.within_load hs he).symm.imp_left And.left
  · rcases h.fits with ⟨hm, hl⟩ | hl
    · left
      refine ⟨hm, ?_⟩
      rw [length_load_no_room hm hl hs]
      simp
    · right
      rw [load_decision_of_room (by omega), List.length_append, List.length_singleton]
      change _ ≤ t.max_addresses_size
      omega

theorem Beside.reload (h : Beside i s t) (hs : s.cached a = none) (hd : (a, d) ∈ t.addresses) :
    Beside i (_load_decision a d s) t := by
  refine { h with keys := keys_load h.keys hs, within := ?_, fits := ?_ }
  · intro e he
    rcases h.within_load hs he with rfl | he
    · exact hd
    · exact he.1
  · rcases h.fits with ⟨hm, hl⟩ | hl
    · left
      refine ⟨hm, ?_⟩
      rw [length_load_no_room hm hl hs]
      simp
    · exact Or.inr hl

theorem Beside.reuse (h : Beside i s t) (hd : (a, d) ∈ t.addresses) :
    Beside i s (t.use a d) := by
  have hl := length_use (d := d) hd
  refine { h with keys' := keys_use h.keys', within := ?_, fits := h.fits.imp_right fun h => ?_ }
  · intro e he
    rw [mem_use]
    by_cases ha : e.1 = a
    · exact Or.inl (mem_of_keys h.keys' (h.within e he) hd ha)
    · exact Or.inr ⟨h.within e he, ha⟩
  · exact le_trans (by omega) h

theorem Beside.cache {immutable : Bool} {quorum : Finset A} (h : Beside i s t) :
    Beside i (_cache a immutable quorum s) (_cache a immutable quorum t) := { h with }

theorem Beside.set_storage (h : Beside i s t) (data : BlockOrPaxos B A) :
    Beside i { s with storage := Function.update s.storage a (some data) }
      { t with storage := Function.update t.storage a (some data) } :=
  { h with storage := by rw [h.storage] }

theorem Beside.erase (h : Beside i s t) : Beside i (erase a s) (erase a t) := by
  have hle := List.length_filter_le (fun e : A × Server B A => e.1 ≠ a)
  refine { h with
    storage := by simp only [LocalPeer.erase, h.storage]
    keys := h.keys.sublist (List.filter_sublist.map _)
    keys' := h.keys'.sublist (List.filter_sublist.map _)
    within := ?_
    fits := ?_ }
  · intro e he
    simp only [LocalPeer.erase, List.mem_filter] at he ⊢
    exact ⟨h.within e he.1, he.2⟩
  · rcases h.fits with ⟨hm, hl⟩ | hl
    · exact Or.inl ⟨hm, (hle _).trans hl⟩
    · exact Or.inr (le_trans (Nat.add_le_add_right (hle _) i) hl)

/-! ## What is cached is stored -/

/-- The cache has what is stored, but for the block `a`, and the storage has acceptors as they are
read back. -/
structure Writing (a : Option A) (t : LocalPeer B A) : Prop where
  format : ⟨0, 1, 0⟩ ≤ t.version
  versions : ∀ e ∈ t.addresses, e.2.version = t.version
  cached : ∀ e ∈ t.addresses, some e.1 ≠ a →
    t.storage e.1 = some (.paxos (e.2.stored t.version))
  stored : ∀ a d, t.storage a = some (.paxos d) → d.stored t.version = d ∧ Server.Ordered d

/-- The stored form loses nothing of the acceptors in the cache. -/
def Whole (t : LocalPeer B A) : Prop := ∀ e ∈ t.addresses, e.2.stored t.version = e.2

theorem Writing.use {x : Option A} (h : Writing x t) (hd : (a, d) ∈ t.addresses) :
    Writing x (t.use a d) := by
  refine { h with versions := ?_, cached := ?_ }
  · intro e he
    rcases mem_use.mp he with rfl | he
    · exact h.versions _ hd
    · exact h.versions e he.1
  · intro e he
    rcases mem_use.mp he with rfl | he
    · exact h.cached _ hd
    · exact h.cached e he.1

theorem Writing.cache {x : Option A} {immutable : Bool} {quorum : Finset A} (h : Writing x t) :
    Writing x (_cache a immutable quorum t) := { h with }

theorem Writing.version_of_stored {x : Option A} (h : Writing x t)
    (hd : t.storage a = some (.paxos d)) : d.version = t.version := by
  rw [← (h.stored a d hd).1]
  rfl

theorem Writing.load (h : Writing none t) (hd : d.version = t.version) :
    Writing (some a) (_load_decision a d t) := by
  refine { h with versions := ?_, cached := ?_ }
  · intro e he
    rcases of_mem_load he with rfl | he
    · exact hd
    · exact h.versions e he
  · intro e he hne
    rcases of_mem_load he with rfl | he
    · exact absurd rfl hne
    · exact h.cached e he (by simp)

theorem Writing.load_stored (h : Writing none t) (hd : t.storage a = some (.paxos d)) :
    Writing none (_load_decision a d t) := by
  refine { h.load (a := a) (h.version_of_stored hd) with cached := ?_ }
  intro e he hne
  rcases of_mem_load he with rfl | he
  · change t.storage a = some (.paxos (d.stored t.version))
    rw [hd, (h.stored a d hd).1]
  · exact h.cached e he hne

theorem Writing.weaken (h : Writing none t) : Writing (some a) t :=
  { h with cached := fun e he _ => h.cached e he (by simp) }

theorem Writing.save (h : Writing (some a) t) (ho : Server.Ordered d)
    (hv : d.version = t.version) :
    Writing none { t.use a d with
      storage := Function.update t.storage a (some (.paxos (d.stored t.version))) } := by
  refine { h with versions := ?_, cached := ?_, stored := ?_ }
  · intro e he
    rcases mem_use.mp he with rfl | he
    · exact hv
    · exact h.versions e he.1
  · intro e he _
    rcases mem_use.mp he with rfl | he
    · simp [LocalPeer.use]
    · simp only [Function.update_of_ne he.2]
      exact h.cached e he.1 (by simpa using he.2)
  · intro a' d' hd'
    by_cases ha : a' = a
    · subst ha
      simp only [Function.update_self, Option.some.injEq, BlockOrPaxos.paxos.injEq] at hd'
      subst hd'
      exact ⟨Server.stored_stored d t.version, ho.stored h.format⟩
    · simp only [Function.update_of_ne ha] at hd'
      exact h.stored a' d' hd'

theorem Writing.erase (h : Writing none t) : Writing none (erase a t) := by
  refine { h with
    versions := fun e he => h.versions e (List.mem_of_mem_filter he)
    cached := ?_
    stored := ?_ }
  · intro e he hne
    simp only [LocalPeer.erase, List.mem_filter, decide_eq_true_eq] at he
    change Function.update t.storage a none e.1 = _
    rw [Function.update_of_ne he.2]
    exact h.cached e he.1 hne
  · intro a' d' hd'
    change Function.update t.storage a none a' = _ at hd'
    by_cases ha : a' = a
    · subst ha
      simp at hd'
    · rw [Function.update_of_ne ha] at hd'
      exact h.stored a' d' hd'

theorem Writing.close (h : Writing (some a) t) (hk : (t.addresses.map (·.1)).Nodup)
    (hmem : (a, d) ∈ t.addresses) (hd : t.storage a = some (.paxos d)) : Writing none t := by
  refine { h with cached := ?_ }
  intro e he _
  by_cases ha : e.1 = a
  · rw [mem_of_keys hk he hmem ha]
    change t.storage a = some (.paxos (d.stored t.version))
    rw [hd, (h.stored a d hd).1]
  · exact h.cached e he (by simpa using ha)

/-! ## Loading, side by side -/

/-- Two nodes between the calls. -/
def Between (i : Nat) (s t : LocalPeer B A) : Prop := Beside i s t ∧ Writing none t

theorem load_side (owners : Finset A) :
    Op.Sim (fun s t => Between (i + 1) s t ∧ Whole t) (_load a owners) (_load a owners)
      (fun x s t => Between i s t ∧
        ∀ d : Server B A, x = .paxos d → (a, d) ∈ s.addresses ∧ t.storage a = some (.paxos d))
      (fun e s t => Between (i + 1) s t ∧ e = .missing_key a ∧ s.cached a = none ∧
        t.cached a = none) := by
  apply Op.Sim.get_bind
  rintro s t ⟨⟨hb, hw⟩, hwhole⟩
  cases hs : s.cached a with
  | some d =>
    have hmem := mem_of_cached hs
    rw [hb.cached hs]
    refine Op.Sim.of_ok rfl rfl ⟨⟨hb.less.use hmem, hw.use (hb.within _ hmem)⟩, ?_⟩
    rintro _ ⟨⟩
    refine ⟨mem_use.mpr (Or.inl rfl), ?_⟩
    change t.storage a = _
    rw [hw.cached _ (hb.within _ hmem) (by simp), hwhole _ (hb.within _ hmem)]
  | none =>
    simp only
    rw [hb.storage]
    cases ht : t.cached a with
    | some d =>
      -- the first node dropped the acceptor and reads it back
      have hmem := mem_of_cached ht
      have hst : t.storage a = some (.paxos d) := by
        rw [hw.cached _ hmem (by simp), hwhole _ hmem]
      rw [hst]
      refine Op.Sim.of_ok rfl rfl ⟨⟨(hb.less.reload hs hmem).reuse hmem, hw.use hmem⟩, ?_⟩
      rintro _ ⟨⟩
      exact ⟨mem_load, hst⟩
    | none =>
      cases hst : t.storage a with
      | none => exact Op.Sim.of_error rfl rfl ⟨⟨hb, hw⟩, rfl, hs, ht⟩
      | some x =>
        cases x with
        | paxos d =>
          refine Op.Sim.of_ok rfl rfl ⟨⟨hb.load hs ht, hw.load_stored hst⟩, ?_⟩
          rintro _ ⟨⟩
          exact ⟨mem_load, hst⟩
        | block b =>
          -- the indices may differ, and nothing else depends on them
          have hsides : ∀ s' t' : LocalPeer B A, Between i s' t' → Between i s' t' ∧
              ∀ d : Server B A, BlockOrPaxos.block b = .paxos d →
                (a, d) ∈ s'.addresses ∧ t'.storage a = some (.paxos d) :=
            fun s' t' h => ⟨h, fun d hd => by cases hd⟩
          simp only
          split_ifs <;> refine Op.Sim.of_ok rfl rfl (hsides _ _ ⟨{ hb.less with }, { hw with }⟩)

theorem load_paxos_side (peers : Option (Finset A)) (value : Option B) (owners : Finset A) :
    Op.Sim (fun s t => Between (i + 1) s t ∧ Whole t) (_load_paxos a peers value owners)
      (_load_paxos a peers value owners)
      (fun d s t => Beside i s t ∧ Writing (some a) t ∧ (a, d) ∈ s.addresses ∧
        Server.Ordered d ∧ d.version = t.version ∧
        (t.storage a = some (.paxos d) ∨
          ∃ q, peers = some q ∧ d = Server.new s.id q value s.version))
      (fun _ => Between i) := by
  refine Op.Sim.tryCatch (?_ : Op.Sim _ _ _ _ fun e s t => Between i s t ∧
    ∀ a', e = .missing_key a' → Between (i + 1) s t ∧ s.cached a = none ∧ t.cached a = none) ?_
  · refine Op.Sim.bind ((load_side owners).weaken (fun _ _ h => h) (fun _ _ _ h => h) ?_) ?_
    · rintro e s t ⟨⟨hb, hw⟩, -, hs, ht⟩
      exact ⟨⟨hb.less, hw⟩, fun _ _ => ⟨⟨hb, hw⟩, hs, ht⟩⟩
    · intro x
      cases x with
      | block b =>
        apply Op.Sim.throw
        rintro s t ⟨h, -⟩
        exact ⟨h, fun a' ha => by cases ha⟩
      | paxos d =>
        apply Op.Sim.pure
        rintro s t ⟨⟨hb, hw⟩, hd⟩
        obtain ⟨hmem, hst⟩ := hd d rfl
        exact ⟨hb, hw.weaken, hmem, (hw.stored a d hst).2, hw.version_of_stored hst, Or.inl hst⟩
  · intro e
    cases e with
    | missing_key a' =>
      cases peers with
      | none => exact Op.Sim.throw fun s t h => h.1
      | some q =>
        apply Op.Sim.get_bind
        rintro s t ⟨-, h⟩
        obtain ⟨⟨hb, hw⟩, hs, ht⟩ := h a' rfl
        rw [← hb.id, ← hb.version]
        refine Op.Sim.of_ok rfl rfl ⟨hb.load hs ht, hw.load hb.version, mem_load, ?_, hb.version,
          Or.inr ⟨q, rfl, rfl⟩⟩
        rintro sp acc ⟨⟩
    | _ => exact Op.Sim.throw fun s t h => h.1

/-! ## The calls, side by side -/

theorem save_side {α : Type} (result : Except (Error A) α × Server B A)
    (ho : Server.Ordered result.2) :
    Op.Sim (fun s t => Beside i s t ∧ Writing (some a) t ∧ result.2.version = t.version ∧
        ∃ d, (a, d) ∈ s.addresses ∧
          ∀ e, result.1 = .error e → result.2 = d ∧ t.storage a = some (.paxos d))
      (save a result) (save a result)
      (fun _ s t => Between i s t ∧ t.storage a ≠ none) (fun _ => Between i) := by
  apply Op.Sim.of_states
  rintro s t ⟨hb, hw, hver, d, hmem, herr⟩
  cases hr : result.1 with
  | ok x =>
    refine Op.Sim.of_ok (save_ok hr) (save_ok hr) ⟨⟨?_, hw.save ho hver⟩, by simp⟩
    have := (hb.use (d := result.2) hmem).set_storage (a := a)
      (.paxos (result.2.stored s.version))
    rw [hb.version] at this ⊢
    exact this
  | error e =>
    obtain ⟨hsame, hst⟩ := herr e hr
    refine Op.Sim.of_error (save_error hr) (save_error hr) ⟨hb.use hmem, ?_⟩
    rw [hsame]
    exact (hw.close hb.keys' (hb.within _ hmem) hst).use (hb.within _ hmem)

theorem load_paxos_storage (σ : A → Option (BlockOrPaxos B A)) (peers : Option (Finset A))
    (value : Option B) (owners : Finset A) :
    Op.Spec (fun s : LocalPeer B A => s.storage = σ) (_load_paxos a peers value owners)
      (fun _ s => s.storage = σ) (fun _ s => s.storage = σ) := by
  have hload : Op.Spec (fun s : LocalPeer B A => s.storage = σ) (_load a owners)
      (fun _ s => s.storage = σ) (fun _ s => s.storage = σ) := by
    intro s hs
    cases hx : s.held a with
    | none =>
      rw [load_missing owners hx]
      exact hs
    | some x =>
      obtain ⟨s', heq, hst⟩ := load_held owners hx
      rw [heq]
      exact hst.trans hs
  refine Op.Spec.tryCatch (?_ : Op.Spec _ _ _ fun _ s => s.storage = σ) ?_
  · apply Op.Spec.bind hload
    intro x
    cases x with
    | block b => exact Op.Spec.throw fun _ h => h
    | paxos d => exact Op.Spec.pure fun _ h => h
  · intro e
    cases e with
    | missing_key a' =>
      cases peers with
      | none => exact Op.Spec.throw fun _ h => h
      | some q =>
        apply Op.Spec.get_bind
        intro s hs
        exact Op.Spec.of_ok rfl hs
    | _ => exact Op.Spec.throw fun _ h => h

theorem load_save_side {α : Type} {peers : Option (Finset A)} {value : Option B}
    {f : Server B A → Except (Error A) α × Server B A} (owners : Finset A)
    (h : Between (i + 1) s t) (hwhole : Whole t)
    (hinv : ∀ d, Server.Ordered d → Server.Ordered (f d).2)
    (hkeep : ∀ d, (f d).2.version = d.version)
    (hfail : ∀ d, Server.Ordered d → d.version = t.version → t.storage a = some (.paxos d) →
      ∀ e, (f d).1 = .error e → (f d).2 = d)
    (hnew : ∀ id version q, peers = some q → ∃ x, (f (Server.new id q value version)).1 = .ok x) :
    Op.Sim (fun u v => u = s ∧ v = t)
      (do let d ← _load_paxos a peers value owners; save a (f d))
      (do let d ← _load_paxos a peers value owners; save a (f d))
      (fun _ => Between i) (fun _ => Between i) := by
  rintro _ _ ⟨rfl, rfl⟩
  rename_i s t
  have hframe := load_paxos_storage (a := a) t.storage peers value owners t rfl
  rcases (load_paxos_side peers value owners).cases ⟨h, hwhole⟩ with
    ⟨d, s', t', hs, ht, hb, hw, hmem, ho, hver, hstored⟩ | ⟨e, s', t', hs, ht, hbetween⟩
  · rw [ht] at hframe
    rw [Op.bind_of_ok hs, Op.bind_of_ok ht]
    have hsave := (save_side (i := i) (a := a) (f d) (hinv d ho)).weaken
      (R := fun _ => Between i) (fun _ _ h => h) (fun _ _ _ h => h.1) (fun _ _ _ h => h)
    apply hsave
    refine ⟨hb, hw, (hkeep d).trans hver, d, hmem, fun e he => ?_⟩
    have hst : t'.storage a = some (.paxos d) := by
      rcases hstored with hst | ⟨q, hq, hd⟩
      · exact hst
      · obtain ⟨x, hx⟩ := hnew s'.id s'.version q hq
        rw [hd, hx] at he
        cases he
    have hversion : d.version = t.version := h.2.version_of_stored (by rw [← hframe, hst])
    exact ⟨hfail d ho hversion (by rw [← hframe, hst]) e he, hst⟩
  · rw [Op.bind_of_error hs, Op.bind_of_error ht]
    exact ⟨rfl, hbetween⟩

theorem propose_side [Inhabited A] (peers : Finset A) (p : Proposal A) (insert : Bool)
    (owners : Finset A) :
    Op.Sim (fun s t => Between (i + 1) s t ∧ Whole t)
      (LocalPeer.propose (B := B) peers a p insert owners)
      (LocalPeer.propose peers a p insert owners) (fun _ => Between i) (fun _ => Between i) := by
  apply Op.Sim.of_states
  rintro s t ⟨h, hwhole⟩
  apply load_save_side owners h hwhole
  · exact fun d ho => Server.handle_ordered (r := .propose peers p) ho
  · exact fun d => Server.handle_version d (.propose peers p)
  · exact fun d _ _ _ e he => Server.propose_failed he
  · intro id version q hq
    cases insert with
    | false => cases hq
    | true =>
      cases hq
      exact propose_new _ _ _ _ _

omit [LinearOrder A] in
theorem validate_side (model : Model B A R) (b : B) {P : LocalPeer B A → LocalPeer B A → Prop}
    {E : LocalPeer B A → LocalPeer B A → Prop} (h : ∀ s t, P s t → E s t) :
    Op.Sim P (validate model b) (validate model b) (fun _ => P) (fun _ => E) := by
  unfold validate
  split
  · exact Op.Sim.pure fun _ _ h => h
  · exact Op.Sim.throw h
  · exact Op.Sim.throw h

/-- The acceptor is in both caches, and it is stored. -/
def Held (a : A) (d : Server B A) (s t : LocalPeer B A) : Prop :=
  (a, d) ∈ s.addresses ∧ t.storage a = some (.paxos d)

theorem load_held_side (owners : Finset A) :
    Op.Sim (fun s t => Between (i + 1) s t ∧ Whole t) (_load_paxos a none none owners)
      (_load_paxos a none none owners)
      (fun (d : Server B A) s t => Between i s t ∧ Held a d s t) (fun _ => Between i) := by
  refine (load_paxos_side none none owners).weaken (fun _ _ h => h) ?_ (fun _ _ _ h => h)
  rintro d s t ⟨hb, hw, hmem, -, -, hst | ⟨q, hq, -⟩⟩
  · exact ⟨⟨hb, hw.close hb.keys' (hb.within _ hmem) hst⟩, hmem, hst⟩
  · cases hq

theorem save_held_side {α : Type} {f : Server B A → Except (Error A) α × Server B A}
    (hinv : Server.Ordered d → Server.Ordered (f d).2) (hkeep : (f d).2.version = d.version)
    (hfail : ∀ e, (f d).1 = .error e → (f d).2 = d) :
    Op.Sim (fun s t => Between i s t ∧ Held a d s t) (save a (f d)) (save a (f d))
      (fun _ s t => Between i s t ∧ t.storage a ≠ none) (fun _ => Between i) := by
  apply Op.Sim.of_states
  rintro s t ⟨⟨hb, hw⟩, hmem, hst⟩
  refine (save_side (f d) (hinv (hw.stored a d hst).2)).weaken ?_ (fun _ _ _ h => h)
    (fun _ _ _ h => h)
  intro s' t' heq
  rw [heq.1, heq.2]
  exact ⟨hb, hw.weaken, hkeep.trans (hw.version_of_stored hst), d, hmem,
    fun e he => ⟨hfail e he, hst⟩⟩

theorem accept_side [Inhabited A] (model : Model B A R) (peers : Finset A) (p : Proposal A)
    (value : Value B A) (owners : Finset A) :
    Op.Sim (fun s t => Between (i + 1) s t ∧ Whole t)
      (LocalPeer.accept model peers a p value owners)
      (LocalPeer.accept model peers a p value owners) (fun _ => Between i)
      (fun _ => Between i) := by
  have hsave : ∀ d, Op.Sim (fun s t => Between i s t ∧ Held a d s t)
      (save a (d.accept peers p value)) (save a (d.accept peers p value)) (fun _ => Between i)
      (fun _ => Between i) := by
    intro d
    refine (save_held_side (f := fun d => d.accept peers p value) ?_ ?_ ?_).weaken
      (fun _ _ h => h) (fun _ _ _ h => h.1) (fun _ _ _ h => h)
    · exact Server.handle_ordered (r := .accept peers p value)
    · exact Server.handle_version d (.accept peers p value)
    · exact fun e he => Server.accept_failed he
  cases value with
  | quorum q => exact Op.Sim.bind (load_held_side owners) hsave
  | value b =>
    apply Op.Sim.bind (validate_side model b fun s t h => ⟨h.1.1.less, h.1.2⟩)
    intro _
    apply Op.Sim.bind (load_held_side owners)
    intro d
    split
    · split_ifs
      · exact Op.Sim.bind (M := fun _ _ _ => False) (Op.Sim.throw fun _ _ h => h.1)
          fun _ _ _ h => h.elim
      · exact hsave d
    · exact hsave d

theorem get_side [Inhabited A] (peers : Finset A) (owners : Finset A) :
    Op.Sim (fun s t => Between (i + 1) s t ∧ Whole t) (LocalPeer.get (B := B) peers a owners)
      (LocalPeer.get peers a owners) (fun _ => Between i) (fun _ => Between i) := by
  apply Op.Sim.bind (load_held_side owners)
  intro d
  exact Op.Sim.ofExcept (fun _ _ _ _ h => h.1) (fun _ _ _ _ h => h.1)

theorem load_any_side (owners : Finset A) :
    Op.Sim (fun s t => Between (i + 1) s t ∧ Whole t)
      (Op.tryCatch (_load a owners) fun e =>
        match e with
        | .missing_key a => Op.throw (.missing_block a)
        | e => Op.throw e)
      (Op.tryCatch (_load a owners) fun e =>
        match e with
        | .missing_key a => Op.throw (.missing_block a)
        | e => Op.throw e)
      (fun x s t => Between i s t ∧ ∀ d : Server B A, x = .paxos d → Held a d s t)
      (fun _ => Between i) := by
  apply Op.Sim.tryCatch (load_side owners)
  intro e
  cases e <;> exact Op.Sim.throw fun s t h => ⟨h.1.1.less, h.1.2⟩

theorem remove_block_side :
    Op.Sim (Between i) (_remove a : Op (LocalPeer B A) (Fault B A) Unit) (_remove a)
      (fun _ => Between i) (fun _ => Between i) := by
  apply Op.Sim.get_bind
  rintro s t ⟨hb, hw⟩
  rw [hb.storage]
  cases hst : t.storage a with
  | none => exact Op.Sim.of_error rfl rfl ⟨hb, hw⟩
  | some x => exact Op.Sim.of_ok rfl rfl ⟨hb.erase, hw.erase⟩

theorem change_quorum_side (quorum : Option (Finset A)) :
    Op.Sim (Between i) (change_quorum a quorum : Op (LocalPeer B A) (Fault B A) Unit)
      (change_quorum a quorum) (fun _ => Between i) (fun _ => Between i) := by
  cases quorum with
  | none => exact Op.Sim.pure fun _ _ h => h
  | some quorum =>
    apply Op.Sim.get_bind
    intro s t h
    rw [h.1.id]
    split_ifs
    · exact Op.Sim.of_ok rfl rfl ⟨h.1.cache, h.2.cache⟩
    · refine remove_block_side.weaken ?_ (fun _ _ _ h => h) (fun _ _ _ h => h)
      intro s' t' heq
      rw [heq.1, heq.2]
      exact h

theorem confirm_side [Inhabited A] (peers : Finset A) (p : Proposal A) (owners : Finset A) :
    Op.Sim (fun s t => Between (i + 1) s t ∧ Whole t)
      (LocalPeer.confirm (B := B) peers a p owners) (LocalPeer.confirm peers a p owners)
      (fun _ => Between i) (fun _ => Between i) := by
  apply Op.Sim.bind (load_any_side owners)
  intro x
  cases x with
  | block b => exact Op.Sim.modify fun s t h => ⟨h.1.1.cache, h.1.2.cache⟩
  | paxos d =>
    refine Op.Sim.bind (M := fun _ => Between i) ?_ fun _ => change_quorum_side _
    refine (save_held_side (d := d) (f := fun d => d.confirm peers p) ?_ ?_ ?_).weaken
      (fun _ _ h => ⟨h.1, h.2 d rfl⟩) (fun _ _ _ h => h.1) (fun _ _ _ h => h)
    · exact Server.handle_ordered (r := .confirm peers p)
    · exact Server.handle_version d (.confirm peers p)
    · exact fun e he => Server.confirm_failed he

theorem remove_side [Inhabited A] (model : Model B A R) (rs : R) (owners : Finset A) :
    Op.Sim (fun s t => Between (i + 1) s t ∧ Whole t) (LocalPeer.remove model a rs owners)
      (LocalPeer.remove model a rs owners) (fun _ => Between i) (fun _ => Between i) := by
  apply Op.Sim.bind (load_any_side owners)
  intro x
  refine Op.Sim.bind (M := fun _ => Between i) ?_ fun _ => remove_block_side
  unfold validate_remove
  split
  · exact Op.Sim.pure fun _ _ h => h.1
  · split
    · exact Op.Sim.pure fun _ _ h => h.1
    · exact Op.Sim.throw fun _ _ h => h.1
    · exact Op.Sim.throw fun _ _ h => h.1

/-! ## `propagate`, side by side -/

theorem load_dropped (owners : Finset A) (hc : s.cached a = none)
    (hd : s.storage a = some (.paxos d)) :
    _load a owners s = (.ok (.paxos d), _load_decision a d s) := by
  unfold _load
  rw [Op.bind_of_ok (Op.get_apply s), hc]
  simp only
  rw [hd]
  rfl

theorem Beside.use_first (h : Beside i s t) (hd : (a, d) ∈ s.addresses) :
    Beside i (s.use a d) t := by
  have hl := length_use (d := d) hd
  refine { h with keys := keys_use h.keys, within := ?_, fits := ?_ }
  · intro e he
    rcases mem_use.mp he with rfl | he
    · exact h.within _ hd
    · exact h.within e he.1
  · exact h.fits.imp_left fun h => ⟨h.1, hl.trans h.2⟩

theorem propagate_dropped [Inhabited A] (model : Model B A R) (b : B) (owners : Finset A)
    (ha : model.address b = a) (h : Between i s t) (hs : s.cached a = none)
    (hmem : (a, d) ∈ t.addresses) (hwhole : d.stored t.version = d) (hd : Unmoved d q p) :
    ∃ s', LocalPeer.propagate model q b p owners s = (.ok (), s') ∧ Between i s' t := by
  obtain ⟨hb, hw⟩ := h
  have hst : t.storage a = some (.paxos d) := by
    rw [hw.cached _ hmem (by simp), hwhole]
  have hver : ⟨0, 1, 0⟩ ≤ d.version := by
    rw [hw.version_of_stored hst]
    exact hw.format
  have helect := elect_unmoved hver hd
  unfold LocalPeer.propagate
  rw [Op.bind_of_ok (Op.get_apply s), ha, hs]
  simp only [Option.isSome_none, Bool.false_eq_true, if_false]
  rw [Op.bind_of_ok (load_paxos_of_load (load_dropped owners hs (by rw [hb.storage, hst]))),
    save_ok (x := ()) (by rw [helect]), helect]
  refine ⟨_, rfl, ?_, hw⟩
  have hsame : Function.update s.storage a (some (.paxos (d.stored s.version))) = s.storage := by
    rw [hb.version, hwhole, ← hst, ← hb.storage, Function.update_eq_self]
  have hloaded := (hb.reload hs hmem).use_first mem_load
  exact { hloaded with storage := hsame.trans hb.storage }

theorem Unmoved.not_stale (h : Unmoved d q p) : ¬ Server.Stale d q p := by
  rintro ⟨sp, ap, hst, hlt, hver, hle, -⟩
  obtain ⟨-, sp', acc, hst', hcase⟩ := h
  rw [hst] at hst'
  cases hst'
  rcases hcase with hlt' | ⟨a, ha, -, hlt' | ⟨-, rfl⟩⟩
  · omega
  · exact absurd hlt' (not_lt.mpr hle)
  · cases ha
    exact absurd hlt (lt_irrefl _)

theorem propagate_side [Inhabited A] (model : Model B A R) (b : B) (owners : Finset A)
    (h : Between (i + 1) s t) (hwhole : Whole t)
    (hdropped : ∀ d, s.cached (model.address b) = none → t.cached (model.address b) = some d →
      Unmoved d q p)
    (helected : ∀ d, t.cached (model.address b) = none →
      t.storage (model.address b) = some (.paxos d) → ¬ Server.Stale d q p) :
    (LocalPeer.propagate model q b p owners s).1 = (LocalPeer.propagate model q b p owners t).1 ∧
      Between i (LocalPeer.propagate model q b p owners s).2
        (LocalPeer.propagate model q b p owners t).2 := by
  have hheld : ∀ (n : LocalPeer B A) d, n.cached (model.address b) = some d →
      LocalPeer.propagate model q b p owners n = (.ok (), n) := by
    intro n d hn
    unfold LocalPeer.propagate
    rw [Op.bind_of_ok (Op.get_apply n), hn]
    rfl
  cases ht : t.cached (model.address b) with
  | some d =>
    rw [hheld t d ht]
    cases hs : s.cached (model.address b) with
    | some d' =>
      rw [hheld s d' hs]
      exact ⟨rfl, h.1.less, h.2⟩
    | none =>
      have hmem := mem_of_cached ht
      obtain ⟨s', heq, hb⟩ := propagate_dropped model b owners rfl ⟨h.1.less, h.2⟩ hs hmem
        (hwhole _ hmem) (hdropped d hs ht)
      rw [heq]
      exact ⟨rfl, hb⟩
  | none =>
    have hs : s.cached (model.address b) = none := by
      cases hs : s.cached (model.address b) with
      | none => rfl
      | some d =>
        rw [h.1.cached hs] at ht
        cases ht
    have hprog : ∀ n : LocalPeer B A, n.cached (model.address b) = none →
        LocalPeer.propagate model q b p owners n =
          (do let d ← _load_paxos (model.address b) (some q) (some b) owners
              save (model.address b) (elect d q p)) n := by
      intro n hn
      unfold LocalPeer.propagate
      rw [Op.bind_of_ok (Op.get_apply n), hn]
      rfl
    rw [hprog s hs, hprog t ht]
    refine (load_save_side (f := fun d => elect d q p) owners h hwhole ?_ ?_ ?_ ?_).results
      ⟨rfl, rfl⟩
    · exact fun d ho => elect_ordered ho
    · exact fun d => elect_version
    · intro d ho hv hst e he
      have hv' : ⟨0, 1, 0⟩ ≤ d.version := by
        rw [hv]
        exact h.2.format
      exact elect_failed hv' ho (helected d ht hst) he
    · intro id version q' hq
      cases hq
      exact elect_new _ _ _ _ _

end memo.LocalPeer
