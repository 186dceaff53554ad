-- What a step of the cache puts in the cache: at most the one block that it writes. The rest
-- of what is cached was there before.
import Memo.Cache
import Memo.Runs

open stores runs

namespace memo.consensus

variable {A B : Type} [DecidableEq A] {env : Cacheable A B}

namespace Cache

/-! ## The block that is written -/

/-- `_insert_cache` puts the block in a cache. -/
def inserts (s : Cache env) (b : B) : Bool :=
  env.valid b &&
    if env.version b = ⊥ then decide (s._disk_cache_size ≠ 0) && s._disk_cache_path.isSome
    else decide (s._cache_size ≠ 0) && (s.cached (env.address b)).isNone

/-- The block that is cached when a call returns with an answer. -/
def Flight.writes (f : Flight A B) (s : Cache env) : Answer B → Option B
  | .block b =>
    match f.call with
    | .fetch _ _ | .fetch_many _ => if s.inserts b then some b else none
    | .refresh a _ _ => if (s.cached a).isSome then some b else none
    | .store _ _ => if env.version b ≠ ⊥ ∨ s._disk_cache_path.isSome then some b else none
    | .remove _ => none
  | _ => none

/-- The block that the next step puts in a cache. -/
def writes (s : Cache env) : Action A B → Option B
  | .insert b => some b
  | .returns i =>
    match s.flights[i]? with
    | some f => f.answer.bind (f.writes s)
    | none => none
  | _ => none

/-! ## What is cached -/

/-- What is cached was cached before, or is the block `b`. -/
def Changed (b : Option B) (s s' : Cache env) : Prop :=
  (∀ c' ∈ s'._cache, (∃ c ∈ s._cache, c'.block = c.block) ∨ b = some c'.block) ∧
    ∀ c' ∈ s'._disk_cache,
      (∃ c ∈ s._disk_cache, c'.address = c.address) ∨ b.map env.address = some c'.address

/-- Only the caches change. -/
def Rest (s s' : Cache env) : Prop :=
  s' = { s with
    _disk_cache_path := s'._disk_cache_path, _disk_cache_used := s'._disk_cache_used
    _cache := s'._cache, _disk_cache := s'._disk_cache }

theorem Rest.trans {s s' s'' : Cache env} (h : Rest s s') (h' : Rest s' s'') : Rest s s'' := by
  unfold Rest at h' ⊢
  rw [h', h]

section

variable {s s' : Cache env} (h : Rest s s')

include h

theorem Rest.floor : s'.floor = s.floor := by
  unfold Rest at h
  rw [h]

theorem Rest.backend : s'.backend = s.backend := by
  unfold Rest at h
  rw [h]

theorem Rest.flights : s'.flights = s.flights := by
  unfold Rest at h
  rw [h]

theorem Rest.waiters : s'.waiters = s.waiters := by
  unfold Rest at h
  rw [h]

theorem Rest.gone : s'.gone = s.gone := by
  unfold Rest at h
  rw [h]

theorem Rest.fetched : s'.fetched = s.fetched := by
  unfold Rest at h
  rw [h]

end

theorem Changed.refl {b : Option B} (s : Cache env) : Changed b s s :=
  ⟨fun c hc => Or.inl ⟨c, hc, rfl⟩, fun c hc => Or.inl ⟨c, hc, rfl⟩⟩

theorem Changed.trans {b : Option B} {s s' s'' : Cache env} (h : Changed b s s')
    (h' : Changed b s' s'') : Changed b s s'' := by
  constructor
  · intro c'' hc''
    rcases h'.1 c'' hc'' with ⟨c', hc', heq⟩ | hb
    · rw [heq]
      exact h.1 c' hc'
    · exact Or.inr hb
  · intro c'' hc''
    rcases h'.2 c'' hc'' with ⟨c', hc', heq⟩ | hb
    · rw [heq]
      exact h.2 c' hc'
    · exact Or.inr hb

theorem Changed.mono {b : Option B} {s s' : Cache env} (h : Changed none s s') :
    Changed b s s' :=
  ⟨fun c hc => Or.inl ((h.1 c hc).resolve_right (by simp)),
    fun c hc => Or.inl ((h.2 c hc).resolve_right (by simp))⟩

theorem mem_of_cached {s : Cache env} {a : A} {c : CachedBlock B} (h : s.cached a = some c) :
    c ∈ s._cache ∧ env.address c.block = a :=
  ⟨List.mem_of_find?_eq_some h, by simpa using List.find?_some h⟩

theorem not_cached {s : Cache env} {a : A} (h : ¬ (s.cached a).isSome) :
    ∀ c ∈ s._cache, env.address c.block ≠ a := by
  simpa [cached] using h

theorem not_on_disk {s : Cache env} {a : A} (h : s.on_disk a = none) :
    ∀ c ∈ s._disk_cache, c.address ≠ a := by
  simpa [on_disk] using h

/-! ## The operations -/

theorem modify_changed {a : A} {f : CachedBlock B → CachedBlock B} {b : Option B}
    {s : Cache env}
    (h : ∀ c ∈ s._cache, env.address c.block = a → (f c).block = c.block ∨ b = some (f c).block) :
    Changed b s (s.modify a f) := by
  refine ⟨?_, fun c hc => Or.inl ⟨c, hc, rfl⟩⟩
  intro c' hc'
  obtain ⟨c, hc, rfl⟩ := List.mem_map.mp hc'
  split
  next ha => exact (h c hc ha).imp (fun heq => ⟨c, hc, heq⟩) id
  next => exact Or.inl ⟨c, hc, rfl⟩

theorem filter_changed (p : CachedBlock B → Bool) (s : Cache env) :
    Changed none s { s with _cache := s._cache.filter p } :=
  ⟨fun c hc => Or.inl ⟨c, List.mem_of_mem_filter hc, rfl⟩, fun c hc => Or.inl ⟨c, hc, rfl⟩⟩

theorem emplace_changed {b : B} {s : Cache env} (h : ¬ (s.cached (env.address b)).isSome) :
    Changed (some b) s (s.emplace b) := by
  unfold emplace
  rw [if_neg h]
  constructor
  · intro c hc
    rcases List.mem_append.mp hc with hc | hc
    · exact Or.inl ⟨c, hc, rfl⟩
    · rw [List.mem_singleton.mp hc]
      exact Or.inr rfl
  · exact fun c hc => Or.inl ⟨c, hc, rfl⟩

theorem emplace_rest (b : B) (s : Cache env) : Rest s (s.emplace b) := by
  unfold emplace Rest
  split <;> rfl

theorem insert_changed (b : B) (s : Cache env) : Changed (some b) s (s.insert b) := by
  unfold insert
  split
  next => exact modify_changed fun _ _ _ => Or.inr rfl
  next h => exact emplace_changed h

theorem insert_rest (b : B) (s : Cache env) : Rest s (s.insert b) := by
  unfold insert
  split
  · rfl
  · exact emplace_rest b s

theorem drop_file_changed (c : CachedCHB A) (s : Cache env) :
    Changed none s (s.drop_file c) :=
  ⟨fun c hc => Or.inl ⟨c, hc, rfl⟩, fun c hc => Or.inl ⟨c, List.mem_of_mem_filter hc, rfl⟩⟩

theorem drop_file_rest (c : CachedCHB A) (s : Cache env) : Rest s (s.drop_file c) := rfl

theorem prune_changed (order : List (CachedCHB A)) (s : Cache env) :
    Changed none s (prune order s).2 ∧ Rest s (prune order s).2 := by
  induction order generalizing s with
  | nil => exact ⟨Changed.refl s, rfl⟩
  | cons c order ih =>
    unfold prune
    split
    · exact ⟨Changed.refl s, rfl⟩
    · obtain ⟨hchanged, hrest⟩ := ih (s.drop_file c)
      exact ⟨(drop_file_changed c s).trans hchanged, (drop_file_rest c s).trans hrest⟩

theorem add_file_changed {b : B} (hb : env.version b = ⊥)
    (files : Shelf env fun b => env.version b = ⊥) (s : Cache env) :
    Changed (some b) s (s.add_file b hb files) := by
  constructor
  · exact fun c hc => Or.inl ⟨c, hc, rfl⟩
  · intro c hc
    unfold add_file at hc
    dsimp only at hc
    split at hc
    · exact Or.inl ⟨c, hc, rfl⟩
    · rcases List.mem_append.mp hc with hc | hc
      · exact Or.inl ⟨c, hc, rfl⟩
      · rw [List.mem_singleton.mp hc]
        exact Or.inr rfl

theorem add_file_rest {b : B} (hb : env.version b = ⊥)
    (files : Shelf env fun b => env.version b = ⊥) (s : Cache env) :
    Rest s (s.add_file b hb files) := rfl

theorem push_rest {b : B} (hb : env.version b = ⊥) (s : Cache env) :
    Rest s (s._disk_cache_push b hb).2 := by
  unfold _disk_cache_push
  split
  · rfl
  next files _ => exact (add_file_rest hb files s).trans (prune_changed _ _).2

theorem push_changed {b : B} (hb : env.version b = ⊥) (s : Cache env) :
    Changed (if s._disk_cache_path.isSome then some b else none) s
      (s._disk_cache_push b hb).2 := by
  unfold _disk_cache_push
  cases s._disk_cache_path with
  | none => exact Changed.refl s
  | some files => exact (add_file_changed hb files s).trans (prune_changed _ _).1.mono

theorem insert_cache_rest (b : B) (s : Cache env) : Rest s (s._insert_cache b).2 := by
  unfold _insert_cache
  split_ifs
  · rfl
  · exact push_rest _ s
  · rfl
  · exact emplace_rest b s
  · rfl

theorem insert_cache_changed (b : B) (s : Cache env) :
    Changed (if s.inserts b then some b else none) s (s._insert_cache b).2 := by
  unfold _insert_cache inserts
  by_cases hv : env.valid b
  · simp only [hv, Bool.true_eq_false, ↓reduceIte, Bool.true_and]
    by_cases hm : env.version b = ⊥
    · rw [dif_pos hm, if_pos hm]
      by_cases hd : s._disk_cache_size = 0
      · simpa [hd] using Changed.refl s
      · simpa [hd] using push_changed hm s
    · rw [dif_neg hm, if_neg hm]
      by_cases hc : s._cache_size = 0
      · simpa [hc] using Changed.refl s
      · by_cases hs : (s.cached (env.address b)).isSome
        · simpa [hc, emplace, hs] using Changed.refl s
        · have hnone : s.cached (env.address b) = none := by simpa using hs
          simpa [hc, hnone] using emplace_changed hs
  · simpa [hv] using Changed.refl s

theorem drop_changed (a : A) (s : Cache env) : Changed none s (s.drop a) := by
  unfold drop
  split
  · exact filter_changed _ s
  split
  next c _ => exact drop_file_changed c s
  next => exact Changed.refl s

theorem drop_rest (a : A) (s : Cache env) : Rest s (s.drop a) := by
  unfold drop
  split
  · rfl
  split <;> rfl

theorem loaded_rest (s : Cache env) : Rest s s.loaded := by
  unfold loaded _load_disk_cache
  split
  · split <;> rfl
  · rfl

/-- A reply that is at least as new as a version, unless it is an error. -/
def Reply.AtLeast (env : Cacheable A B) (v : Version) : Reply B → Prop
  | .failed => True
  | .same v' => v ≤ .of v'
  | .block b => v ≤ env.version b

theorem fetch_cache_spec {s s' : Cache env} {a : A} {v : Option Int} {r : Reply B}
    (h : s._fetch_cache a v = some (r, s')) :
    (Changed none s s' ∧ Rest s s') ∧
      ((∃ c, s.cached a = some c ∧ ∀ v, v ≤ env.version c.block → r.AtLeast env v) ∨
        s.cached a = none ∧
          (r = .failed ∨ ∃ files, s._disk_cache_path = some files ∧ ∃ b, files.find a = some b ∧
            r = .block b)) := by
  unfold _fetch_cache at h
  split at h
  next hit hc =>
    have hmod : Changed none s (s.modify a fun c => { c with last_used := s.clock }) :=
      modify_changed fun _ _ _ => Or.inl rfl
    dsimp only at h
    split at h
    · simp only [Option.some.injEq, Prod.mk.injEq] at h
      obtain ⟨rfl, rfl⟩ := h
      refine ⟨⟨hmod, rfl⟩, Or.inl ⟨hit, hc, fun v hv => ?_⟩⟩
      split
      next heq => exact hv.trans_eq heq
      next => exact hv
    · simp only [Option.some.injEq, Prod.mk.injEq] at h
      obtain ⟨rfl, rfl⟩ := h
      exact ⟨⟨hmod, rfl⟩, Or.inl ⟨hit, hc, fun v hv => hv⟩⟩
  next hc =>
    split at h
    next c hd =>
      split at h
      next b hb =>
        simp only [Option.some.injEq, Prod.mk.injEq] at h
        obtain ⟨rfl, rfl⟩ := h
        obtain ⟨files, hfiles, hfind⟩ := Option.bind_eq_some_iff.mp hb
        refine ⟨⟨⟨fun c hc => Or.inl ⟨c, hc, rfl⟩, ?_⟩, rfl⟩,
          Or.inr ⟨hc, Or.inr ⟨files, hfiles, b, hfind, rfl⟩⟩⟩
        intro c' hc'
        obtain ⟨c, hc, rfl⟩ := List.mem_map.mp hc'
        refine Or.inl ⟨c, hc, ?_⟩
        split <;> rfl
      next =>
        simp only [Option.some.injEq, Prod.mk.injEq] at h
        obtain ⟨rfl, rfl⟩ := h
        exact ⟨⟨Changed.refl s, rfl⟩, Or.inr ⟨hc, Or.inl rfl⟩⟩
    next => cases h

/-! ## Steps -/

theorem fetch_changed (a : A) (v : Option Int) (floor : Version) (s : Cache env) :
    Changed none s (s._fetch a v floor) := by
  unfold _fetch
  split
  next r s' h => exact (fetch_cache_spec h).1.1
  next => split <;> exact Changed.refl s

theorem fetch_many_changed (addresses : List (A × Option Int)) (missing : List A)
    (s : Cache env) : Changed none s (s._fetch_many addresses missing) := by
  induction addresses generalizing missing s with
  | nil => exact Changed.refl s
  | cons av addresses ih =>
    unfold _fetch_many
    split
    next s' h => exact (fetch_cache_spec h).1.1
    next r s' _ h =>
      exact (fetch_cache_spec h).1.1.trans (ih missing (s'.reply av.1 (s'.floor av.1) r))
    next => exact ih _ s

theorem stored_eq {b : B} {s s' : Cache env} (h : s.stored b = some s') :
    s.held (env.address b) ≤ env.version b ∧
      s' = { s with backend := s.backend.add b trivial } := by
  unfold stored at h
  split at h
  next hle => exact ⟨hle, (Option.some.inj h).symm⟩
  next => cases h

theorem stored_changed {b : B} {s s' : Cache env} (h : s.stored b = some s') :
    Changed none s s' := by
  rw [(stored_eq h).2]
  exact Changed.refl s

theorem serve_changed {c : Call A B} {how : Served B} {s s' : Cache env} {r : Answer B}
    (h : serve c how s = some (r, s')) : Changed none s s' := by
  unfold serve at h
  split at h
  · cases h
    exact Changed.refl s
  · cases h
    exact Changed.refl s
  · cases h
    exact Changed.refl s
  · cases h
    exact Changed.refl s
  · split_ifs at h
    cases h
    exact Changed.refl s
  · obtain ⟨t, ht, heq⟩ := Option.map_eq_some_iff.mp h
    cases heq
    exact stored_changed ht
  · split_ifs at h
    obtain ⟨t, ht, heq⟩ := Option.map_eq_some_iff.mp h
    cases heq
    exact stored_changed ht
  · cases h
    exact Changed.refl s
  · cases h

theorem store_returns_changed (live : Bool) (b : B) (s : Cache env) :
    Changed (if env.version b ≠ ⊥ ∨ s._disk_cache_path.isSome then some b else none) s
      (s.store_returns live (.block b)) := by
  unfold store_returns
  by_cases hb : env.version b = ⊥
  · simpa [hb] using push_changed hb s
  · simp only [ne_eq, hb, not_false_eq_true, true_or, ↓reduceIte]
    exact insert_changed b s

theorem refresh_returns_changed (a : A) (now : Int) (b : B) (s : Cache env) :
    Changed (if (s.cached a).isSome then some b else none) s
      (s.refresh_returns a now (.block b)) := by
  refine modify_changed fun c hc ha => Or.inr ?_
  rw [if_pos]
  by_contra hnot
  exact not_cached hnot c hc ha

theorem returns_changed (f : Flight A B) (r : Answer B) (s : Cache env) :
    Changed (f.writes s r) s (f.returns r s) := by
  unfold Flight.returns Flight.writes
  cases r with
  | failed =>
    cases f.call with
    | refresh => exact filter_changed _ s
    | _ => exact Changed.refl s
  | null =>
    cases f.call with
    | refresh => exact modify_changed fun _ _ _ => Or.inl rfl
    | _ => exact Changed.refl s
  | block b =>
    cases f.call with
    | fetch a v => exact insert_cache_changed b s
    | fetch_many a => exact insert_cache_changed b s
    | refresh a v now => exact refresh_returns_changed a now b s
    | store b' resolver => exact store_returns_changed f.live b s
    | remove a => exact Changed.refl s

theorem step_changed {s s' : Cache env} {act : Action A B} (h : s.step act = some s') :
    Changed (s.writes act) s s' := by
  cases act with
  | fetch a v => cases h; exact fetch_changed a v _ s
  | fetch_many addresses => cases h; exact fetch_many_changed addresses [] s
  | store b resolver => cases h; exact Changed.refl s
  | remove a => cases h; exact drop_changed a s
  | insert b => cases h; exact insert_changed b s
  | clear => cases h; exact ⟨by simp, fun c hc => Or.inl ⟨c, hc, rfl⟩⟩
  | cleanup =>
    simp only [step] at h
    split_ifs at h
    cases h
    exact filter_changed _ s
  | batch =>
    simp only [step] at h
    split_ifs at h
    cases h
    exact Changed.refl s
  | answer i how =>
    simp only [step, answer] at h
    split at h
    · cases h
    split at h
    · cases h
    obtain ⟨⟨r, t⟩, ht, rfl⟩ := Option.map_eq_some_iff.mp h
    have hserve := serve_changed ht
    exact hserve
  | returns i =>
    simp only [step, returns] at h
    split at h
    next => cases h
    next f hf =>
      obtain ⟨r, hr, rfl⟩ := Option.map_eq_some_iff.mp h
      simp only [writes, hf, hr, Option.bind_some]
      exact returns_changed f r { s with flights := s.flights.eraseIdx i }
  | resume i =>
    simp only [step, resume] at h
    split at h
    · cases h
    split_ifs at h
    cases h
    exact fetch_changed _ _ _ { s with waiters := s.waiters.eraseIdx i }
  | created b =>
    have hstored : Changed none (s.back (env.address b)) s' := stored_changed h
    exact hstored
  | removed a => cases h; exact Changed.refl s
  | wait d => cases h; exact Changed.refl s

/-- Blocks with a number and a version, mutable where the number is even. -/
def dated : Cacheable Nat (Nat × Int) where
  address b := b.1
  version b := if b.1 % 2 = 0 then .of b.2 else ⊥
  mutable_block a := a % 2 = 0
  valid _ := true
  size _ := 1
  mutable_block_version := by
    intro b
    split <;> simp_all

end Cache

end memo.consensus
