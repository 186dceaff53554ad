-- Blocks that are removed. The entry of a block is dropped before the backend removes it, and
-- stays away as long as nothing that is still on its way puts the block back.
import Memo.CacheWrites

open stores runs

namespace memo.consensus

variable {A B : Type} [DecidableEq A] {env : Cacheable A B}

namespace Cache

/-- No fetch of a block that is gone would find it in the caches. -/
def StaysAway (s : Cache env) : Prop :=
  ∀ a v, s.gone a = true → s._fetch_cache a v = none

/-- The call removes the block, and did not fail. -/
def Flight.removes (f : Flight A B) (a : A) : Bool :=
  match f.call, f.answer with
  | .remove a', none | .remove a', some .null => f.live && decide (a' = a)
  | _, _ => false

/-- The block is gone, or is being removed. -/
def Doomed (s : Cache env) (a : A) : Prop :=
  s.gone a = true ∨ ∃ f ∈ s.flights, f.removes a = true

instance (s : Cache env) (a : A) : Decidable (s.Doomed a) :=
  inferInstanceAs (Decidable (_ ∨ _))

/-- The block that is removed is in both caches, and dropped from one. -/
def halves (s : Cache env) : Action A B → Bool
  | .remove a => (s.cached a).isSome && (s.on_disk a).isSome
  | _ => false

/-- The step puts a block in a cache that is gone or being removed, or leaves it in one. -/
def Revives (s : Cache env) (act : Action A B) : Prop :=
  (∃ b ∈ s.writes act, s.Doomed (env.address b)) ∨ s.halves act = true

instance (s : Cache env) (act : Action A B) : Decidable (s.Revives act) :=
  inferInstanceAs (Decidable ((∃ b ∈ s.writes act, s.Doomed (env.address b)) ∨ _))

/-! ## What is away -/

/-- The block is in neither cache. -/
def Away (s : Cache env) (a : A) : Prop :=
  (∀ c ∈ s._cache, env.address c.block ≠ a) ∧ ∀ c ∈ s._disk_cache, c.address ≠ a

variable {s s' : Cache env} {a : A} {f : Flight A B} {r : Answer B}

theorem Away.fetch_cache (h : s.Away a) (v : Option Int) :
    s._fetch_cache a v = none := by
  have hcached : s.cached a = none := by
    simpa [cached] using h.1
  have hdisk : s.on_disk a = none := by
    simpa [on_disk] using h.2
  unfold _fetch_cache
  rw [hcached]
  dsimp only
  rw [hdisk]

theorem Away.changed {b : Option B} (h : s.Away a) (hchanged : Changed b s s')
    (hb : ∀ w ∈ b, env.address w ≠ a) : s'.Away a := by
  constructor
  · intro c' hc'
    rcases hchanged.1 c' hc' with ⟨c, hc, heq⟩ | hw
    · rw [heq]
      exact h.1 c hc
    · exact hb c'.block hw
  · intro c' hc'
    rcases hchanged.2 c' hc' with ⟨c, hc, heq⟩ | hw
    · rw [heq]
      exact h.2 c hc
    · obtain ⟨w, hw, heq⟩ := Option.map_eq_some_iff.mp hw
      exact heq ▸ hb w hw

theorem drop_away (h : ((s.cached a).isSome && (s.on_disk a).isSome) = false) :
    (s.drop a).Away a := by
  unfold drop
  split
  next hc =>
    have hdisk : s.on_disk a = none := by simpa [hc] using h
    refine ⟨fun c hmem => ?_, not_on_disk hdisk⟩
    simpa using (List.mem_filter.mp hmem).2
  next hc =>
    split
    next c hdisk =>
      have ha : c.address = a := by simpa [on_disk] using List.find?_some hdisk
      refine ⟨not_cached hc, fun c' hmem => ?_⟩
      simpa [ha] using (List.mem_filter.mp hmem).2
    next hdisk => exact ⟨not_cached hc, not_on_disk hdisk⟩

/-! ## Steps -/

theorem Doomed.before (h : s'.Doomed a) (hgone : s'.gone a = true → s.Doomed a)
    (hf : ∀ f' ∈ s'.flights, f'.removes a = true → ∃ f ∈ s.flights, f.removes a = true) :
    s.Doomed a := by
  rcases h with h | ⟨f, hmem, hr⟩
  · exact hgone h
  · exact Or.inr (hf f hmem hr)

theorem Doomed.same (h : s'.Doomed a) (hgone : s'.gone = s.gone)
    (hf : ∀ f ∈ s'.flights, f.removes a = true → f ∈ s.flights) : s.Doomed a :=
  h.before (fun hg => Or.inl (hgone ▸ hg)) fun f hmem hr => ⟨f, hf f hmem hr, hr⟩

theorem Doomed.sent {fs : List (Flight A B)} (h : s'.Doomed a)
    (hgone : s'.gone a = true → s.Doomed a) (hf : s'.flights = s.flights ++ fs)
    (hfs : ∀ f ∈ fs, f.removes a = false) : s.Doomed a := by
  refine h.before hgone fun f hmem hr => ?_
  rw [hf] at hmem
  rcases List.mem_append.mp hmem with hmem | hmem
  · exact ⟨f, hmem, hr⟩
  · rw [hfs f hmem] at hr
    cases hr

theorem Flight.undone_removes {stores : Bool} {floor : Version}
    (h : Flight.removes { f.undone stores with floor := floor } a = true) :
    f.removes a = true := by
  unfold Flight.undone at h
  split at h
  next hc _ => simp [Flight.removes, hc] at h
  next a' r hc hr =>
    cases r with
    | failed => simp [Flight.removes, hc, hr] at h
    | block b => simp [Flight.removes, hc, hr] at h
    | null =>
      simp only [Flight.removes, hc, hr, Bool.and_eq_true, decide_eq_true_eq] at h ⊢
      exact ⟨h.1.1, h.2⟩
  next => exact h

theorem fetch_doomed {a' : A} {v : Option Int} {floor : Version}
    (h : (s._fetch a v floor).Doomed a') : s.Doomed a' := by
  unfold _fetch at h
  split at h
  next r s' hs =>
    obtain ⟨-, hrest⟩ := (fetch_cache_spec hs).1
    exact h.same hrest.gone fun f hf _ => hrest.flights ▸ hf
  split at h
  · exact h.same rfl fun f hf _ => hf
  · refine h.sent (fun hg => Or.inl hg) rfl fun f hf => ?_
    rw [List.mem_singleton.mp hf]
    rfl

theorem fetch_many_doomed {addresses : List (A × Option Int)} {missing : List A}
    (h : (s._fetch_many addresses missing).Doomed a) : s.Doomed a := by
  induction addresses generalizing missing s with
  | nil =>
    refine h.sent (fun hg => Or.inl hg) rfl fun f hf => ?_
    obtain ⟨a', -, rfl⟩ := List.mem_map.mp hf
    rfl
  | cons av addresses ih =>
    unfold _fetch_many at h
    split at h
    next s' hs =>
      obtain ⟨-, hrest⟩ := (fetch_cache_spec hs).1
      exact h.same hrest.gone fun f hf _ => hrest.flights ▸ hf
    next r s' _ hs =>
      obtain ⟨-, hrest⟩ := (fetch_cache_spec hs).1
      exact (ih h).same hrest.gone fun f hf _ => hrest.flights ▸ hf
    next => exact ih h

theorem stored_doomed {b : B} (hs : s.stored b = some s') (h : s'.Doomed a) : s.Doomed a := by
  rw [(stored_eq hs).2] at h
  exact h

theorem removed_doomed {a' : A} (h : (s.removed a).Doomed a') :
    s.Doomed a' := by
  refine h.before (fun hg => Or.inl hg) fun f' hf' hr => ?_
  obtain ⟨f, hf, rfl⟩ := List.mem_map.mp hf'
  split at hr
  · exact ⟨f, hf, Flight.undone_removes hr⟩
  · exact ⟨f, hf, hr⟩

theorem back_doomed {a' : A} (h : (s.back a).Doomed a') : s.Doomed a' := by
  refine h.before (fun hg => ?_) fun f' hf' hr => ?_
  · by_cases ha : a' = a
    · rw [ha] at hg
      exact absurd hg (by simp [Cache.back])
    · have heq : (s.back a).gone a' = s.gone a' := Function.update_of_ne ha _ _
      exact Or.inl (heq ▸ hg)
  · obtain ⟨f, hf, rfl⟩ := List.mem_map.mp hf'
    split at hr
    · exact ⟨f, hf, Flight.undone_removes hr⟩
    · exact ⟨f, hf, hr⟩

theorem Flight.answered_removes (hnone : f.answer = none)
    (h : Flight.removes { f with answer := some r } a = true) : f.removes a = true := by
  unfold Flight.removes at h ⊢
  rw [hnone]
  cases hc : f.call with
  | remove a' => cases r <;> simp_all
  | _ => simp [hc] at h

theorem serve_doomed {c : Call A B} {how : Served B} (hs : serve c how s = some (r, s'))
    (h : s'.Doomed a) : s.Doomed a := by
  unfold serve at hs
  split at hs
  case h_5 =>
    split_ifs at hs
    cases hs
    exact h
  case h_6 =>
    obtain ⟨t, ht, heq⟩ := Option.map_eq_some_iff.mp hs
    cases heq
    exact stored_doomed ht h
  case h_7 =>
    split_ifs at hs
    obtain ⟨t, ht, heq⟩ := Option.map_eq_some_iff.mp hs
    cases heq
    exact stored_doomed ht h
  case h_8 =>
    cases hs
    exact removed_doomed h
  all_goals
    cases hs
    try exact h

theorem returned_doomed (hr : f.answer = some r) (h : (f.returns r s).Doomed a) :
    s.Doomed a ∨ f.removes a = true := by
  obtain ⟨c, answer, floor, live⟩ := f
  dsimp only at hr
  subst hr
  unfold Flight.returns at h
  cases c with
  | fetch a' v | fetch_many a' =>
    left
    cases r with
    | block b =>
      have hrest := insert_cache_rest b s
      exact h.same hrest.gone fun f hf _ => hrest.flights ▸ hf
    | _ => exact h
  | refresh a' v now =>
    left
    cases r <;> exact h
  | store b' resolver =>
    left
    cases r with
    | block b =>
      unfold Cache.store_returns at h
      dsimp only at h
      split at h
      next hb =>
        have hrest := push_rest hb s
        exact h.same hrest.gone fun f hf _ => hrest.flights ▸ hf
      next hb =>
        have hrest := insert_rest b s
        exact h.same hrest.gone fun f hf _ => hrest.flights ▸ hf
    | _ => exact h
  | remove a' =>
    cases r with
    | null =>
      rcases h with h | h
      · by_cases ha : a = a'
        · subst ha
          have hor : s.gone a = true ∨ live = true := by
            simpa [Cache.remove_returns] using h
          rcases hor with hg | rfl
          · exact Or.inl (Or.inl hg)
          · exact Or.inr (by simp [Flight.removes])
        · have heq : (s.remove_returns a' live .null).gone a = s.gone a :=
            Function.update_of_ne ha _ _
          exact Or.inl (Or.inl (heq ▸ h))
      · exact Or.inl (Or.inr h)
    | _ => exact Or.inl h

theorem step_doomed {act : Action A B} (hs : s.step act = some s') (h : s'.Doomed a) :
    s.Doomed a ∨ act = .remove a := by
  cases act with
  | fetch a' v =>
    cases hs
    exact Or.inl (fetch_doomed h)
  | fetch_many addresses =>
    cases hs
    exact Or.inl (fetch_many_doomed h)
  | store b resolver =>
    cases hs
    refine Or.inl (h.sent (fun hg => ?_) rfl fun f hf => ?_)
    · by_cases ha : a = env.address b
      · rw [ha] at hg
        exact absurd hg (by simp [Cache._store, send])
      · have heq : (s._store b resolver).gone a = s.gone a := Function.update_of_ne ha _ _
        exact Or.inl (heq ▸ hg)
    · rw [List.mem_singleton.mp hf]
      rfl
  | remove a' =>
    cases hs
    by_cases ha : a' = a
    · exact Or.inr (ha ▸ rfl)
    · have hrest := drop_rest a' s
      have hdrop : (s.drop a').Doomed a := by
        refine h.sent (fun hg => Or.inl hg) rfl fun f hf => ?_
        rw [List.mem_singleton.mp hf]
        simp [Flight.removes, ha]
      exact Or.inl (hdrop.same hrest.gone fun f hf _ => hrest.flights ▸ hf)
  | insert b =>
    cases hs
    have hrest := insert_rest b s
    exact Or.inl (h.same hrest.gone fun f hf _ => hrest.flights ▸ hf)
  | clear =>
    cases hs
    exact Or.inl h
  | cleanup =>
    simp only [step] at hs
    split_ifs at hs
    cases hs
    exact Or.inl h
  | batch =>
    simp only [step] at hs
    split_ifs at hs
    cases hs
    refine Or.inl (h.sent (fun hg => Or.inl hg) rfl fun f hf => ?_)
    obtain ⟨av, -, rfl⟩ := List.mem_map.mp hf
    rfl
  | answer i how =>
    simp only [step, answer] at hs
    split at hs
    next => cases hs
    next f hf =>
      split at hs
      · cases hs
      next hnone =>
        obtain ⟨⟨r, t⟩, ht, rfl⟩ := Option.map_eq_some_iff.mp hs
        have hfalse := Option.not_isSome_iff_eq_none.mp hnone
        rcases h with hg | ⟨f', hf', hr⟩
        · exact Or.inl (serve_doomed ht (Or.inl hg))
        · rcases List.mem_or_eq_of_mem_set hf' with hf' | rfl
          · exact Or.inl (serve_doomed ht (Or.inr ⟨f', hf', hr⟩))
          · exact Or.inl (Or.inr
              ⟨f, List.mem_of_getElem? hf, Flight.answered_removes hfalse hr⟩)
  | returns i =>
    simp only [step, Cache.returns] at hs
    split at hs
    next => cases hs
    next f hf =>
      obtain ⟨r, hr, rfl⟩ := Option.map_eq_some_iff.mp hs
      rcases returned_doomed hr h with h | h
      · exact Or.inl (h.same rfl fun f hf _ => List.mem_of_mem_eraseIdx hf)
      · exact Or.inl (Or.inr ⟨f, List.mem_of_getElem? hf, h⟩)
  | resume i =>
    simp only [step, resume] at hs
    split at hs
    · cases hs
    split_ifs at hs
    cases hs
    have hrest : Doomed { s with waiters := s.waiters.eraseIdx i } a := fetch_doomed h
    exact Or.inl hrest
  | created b => exact Or.inl (back_doomed (stored_doomed hs h))
  | removed a' =>
    cases hs
    exact Or.inl (removed_doomed h)
  | wait d =>
    cases hs
    exact Or.inl h

/-! ## Runs -/

theorem step_away {act : Action A B} (haway : ∀ a, s.Doomed a → s.Away a)
    (hrevives : ¬ s.Revives act) (hs : s.step act = some s') (h : s'.Doomed a) : s'.Away a := by
  have hwrites : s.Doomed a → ∀ w ∈ s.writes act, env.address w ≠ a := by
    intro hd w hw ha
    exact hrevives (Or.inl ⟨w, hw, ha ▸ hd⟩)
  rcases step_doomed hs h with hd | rfl
  · exact (haway a hd).changed (step_changed hs) (hwrites hd)
  · cases hs
    refine drop_away ?_
    by_contra hboth
    exact hrevives (Or.inr (Bool.not_eq_false _ ▸ hboth))

theorem new_doomed (backend : Shelf env fun _ => True) (size : Option Int)
    (invalidation ttl : Option Int) (path : Option (Shelf env fun b => env.version b = ⊥))
    (disk_size : Option Nat) (clock : Int) (a : A) :
    ¬ (new backend size invalidation ttl path disk_size clock).Doomed a := by
  intro h
  have hrest := loaded_rest (start backend size invalidation ttl path disk_size clock)
  have hd := h.same hrest.gone fun f hf _ => hrest.flights ▸ hf
  simp [Doomed, start] at hd

/-- A block that is gone stays away from the caches, in a run where nothing that is on its way puts
it back. -/
theorem a_removed_block_stays_away {backend : Shelf env fun _ => True} {size : Option Int}
    {invalidation ttl : Option Int} {path : Option (Shelf env fun b => env.version b = ⊥)}
    {disk_size : Option Nat} {clock : Int} {acts : List (Action A B)} {s : Cache env}
    (hrun : Run step (fun s act => ¬ s.Revives act)
      (new backend size invalidation ttl path disk_size clock) acts s) : s.StaysAway := by
  have haway : ∀ a, s.Doomed a → s.Away a := by
    refine hrun.invariant (I := fun s => ∀ a, s.Doomed a → s.Away a) ?_ ?_
    · exact fun a h => absurd h (new_doomed backend size invalidation ttl path disk_size clock a)
    · exact fun s act s' hI hrevives hs a h => step_away hI hrevives hs h
  exact fun a v hg => (haway a (Or.inl hg)).fetch_cache v

/-- A block is cached and removed, and an immutable one is fetched. -/
theorem a_removed_block_stays_away_dated :
    ∃ s : Cache dated, s.StaysAway ∧ s.gone 0 = true ∧ s.fetched.length = 2 := by
  have hrun : ((exec step (fun s act => ¬ s.Revives act)
      (new ((Shelf.empty.add (0, 1) trivial).add (1, 1) trivial))
      [.fetch 0, .answer 0, .returns 0, .remove 0, .fetch 1, .answer 0, .answer 1, .returns 0,
        .returns 0]).map fun s : Cache dated => (s.gone 0, s.fetched.length)) =
          some (true, 2) := by decide
  obtain ⟨s, hs, heq⟩ := Run.of_exec_map hrun
  rw [Prod.mk.injEq] at heq
  exact ⟨s, a_removed_block_stays_away hs, heq⟩

/-- A block is fetched while it is removed. The fetch returns last. -/
theorem a_removed_block_comes_back :
    ¬ ∀ (backend : Shelf dated fun _ => True) (acts : List (Action Nat (Nat × Int)))
      (s : Cache dated), Run step anyStep (new backend) acts s → s.StaysAway := by
  intro h
  have hrun : ((exec step anyStep (new (Shelf.empty.add (0, 1) trivial))
      [.fetch 0, .answer 0, .remove 0, .answer 1, .returns 1, .returns 0]).map
        fun s : Cache dated => (s.gone 0, (s._fetch_cache 0 none).isSome)) =
          some (true, true) := by decide
  obtain ⟨s, hs, heq⟩ := Run.of_exec_map hrun
  rw [Prod.mk.injEq] at heq
  have hnone := h _ _ s hs 0 none heq.1
  rw [hnone] at heq
  cases heq.2

end Cache

end memo.consensus
