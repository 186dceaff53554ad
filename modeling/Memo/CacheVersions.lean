-- The versions that the cache returns. A local store that returned sets a floor for its block,
-- and what is fetched later is not below it, as long as no step writes a block that is.
import Memo.CacheWrites

open stores runs

namespace memo.consensus

variable {A B : Type} [DecidableEq A] {env : Cacheable A B}

namespace Cache

/-- No block goes back in time: what was fetched is at least as new as the floor at the start of
the fetch, and so is what a fetch would find in the caches now. -/
def NeverBack (s : Cache env) : Prop :=
  (∀ r ∈ s.fetched, r.reply.AtLeast env r.floor) ∧
    ∀ a v r s', s._fetch_cache a v = some (r, s') → r.AtLeast env (s.floor a)

/-- The step writes a block that is older than its floor: the answer of a refresh over the entry,
the answer of a fetch where there is no entry, a local store that returns late, or a block that is
inserted. -/
def Ages (s : Cache env) (act : Action A B) : Prop :=
  ∃ b ∈ s.writes act, env.version b < s.floor (env.address b)

instance (s : Cache env) (act : Action A B) : Decidable (s.Ages act) :=
  inferInstanceAs (Decidable (∃ b ∈ s.writes act, env.version b < s.floor (env.address b)))

/-! ## What holds of all that is on its way -/

def Call.is_store : Call A B → Bool
  | .store .. => true
  | _ => false

/-- A call that was made late enough, or whose answer is new enough. -/
def Flight.Sound (s : Cache env) (f : Flight A B) : Prop :=
  match f.answer with
  | none => f.floor ≤ s.floor (f.call.address env)
  | some (.block b) =>
    env.address b = f.call.address env ∧ f.floor ≤ env.version b ∧
      (f.call.is_store → f.live → env.version b ≤ s.held (env.address b))
  | some _ => True

structure Sound (s : Cache env) : Prop where
  floor : ∀ a, s.floor a ≤ s.held a
  cached : ∀ c ∈ s._cache, s.floor (env.address c.block) ≤ env.version c.block
  flights : ∀ f ∈ s.flights, f.Sound s
  waiters : ∀ w ∈ s.waiters, w.floor ≤ s.floor w.address
  fetched : ∀ r ∈ s.fetched, r.reply.AtLeast env r.floor

variable {s s' : Cache env} {f : Flight A B} {floor v : Version} {r : Answer B} {b : B}
  {live : Bool} {a : A}

omit [DecidableEq A] in
theorem Reply.AtLeast.mono {r : Reply B} {v' : Version} (h : r.AtLeast env v) (hle : v' ≤ v) :
    r.AtLeast env v' := by
  cases r with
  | failed => trivial
  | same => exact hle.trans h
  | block => exact hle.trans h

theorem Flight.Sound.congr (h : f.Sound s) (hfloor : s'.floor = s.floor)
    (hbackend : s'.backend = s.backend) : f.Sound s' := by
  unfold Flight.Sound held at h ⊢
  rw [hfloor, hbackend]
  exact h

theorem Sound.frame (hs : s.Sound) (hfloor : s'.floor = s.floor) (hbackend : s'.backend = s.backend)
    (hcached : ∀ c ∈ s'._cache, (∃ c' ∈ s._cache, c.block = c'.block) ∨
      s.floor (env.address c.block) ≤ env.version c.block)
    (hflights : ∀ f ∈ s'.flights, f ∈ s.flights ∨ f.Sound s)
    (hwaiters : ∀ w ∈ s'.waiters, (∃ w' ∈ s.waiters, w.address = w'.address ∧ w.floor = w'.floor) ∨
      w.floor ≤ s.floor w.address)
    (hfetched : ∀ r ∈ s'.fetched, r ∈ s.fetched ∨ r.reply.AtLeast env r.floor) : s'.Sound where
  floor := by
    unfold held
    rw [hfloor, hbackend]
    exact hs.floor
  cached := by
    rw [hfloor]
    intro c hc
    rcases hcached c hc with ⟨c', hc', heq⟩ | hle
    · rw [heq]
      exact hs.cached c' hc'
    · exact hle
  flights := fun f hf => ((hflights f hf).elim (hs.flights f) id).congr hfloor hbackend
  waiters := by
    rw [hfloor]
    intro w hw
    rcases hwaiters w hw with ⟨w', hw', haddress, heq⟩ | hle
    · rw [heq, haddress]
      exact hs.waiters w' hw'
    · exact hle
  fetched := fun r hr => (hfetched r hr).elim (hs.fetched r) id

theorem Sound.write {b : Option B} (hs : s.Sound) (hchanged : Changed b s s') (hrest : Rest s s')
    (hb : ∀ w ∈ b, s.floor (env.address w) ≤ env.version w) : s'.Sound := by
  refine hs.frame hrest.floor hrest.backend ?_ ?_ ?_ ?_
  · intro c hc
    rcases hchanged.1 c hc with h | h
    · exact Or.inl h
    · exact Or.inr (hb c.block h)
  · exact fun f hf => Or.inl (hrest.flights ▸ hf)
  · exact fun w hw => Or.inl ⟨w, hrest.waiters ▸ hw, rfl, rfl⟩
  · exact fun r hr => Or.inl (hrest.fetched ▸ hr)

theorem sends_sound {fs : List (Flight A B)} (hfs : ∀ f ∈ fs, f.Sound s) :
    ∀ f ∈ s.flights ++ fs, f ∈ s.flights ∨ f.Sound s :=
  fun f hf => (List.mem_append.mp hf).imp id (hfs f)

theorem Sound.reply (hs : s.Sound) {r : Reply B} (hr : r.AtLeast env v) :
    (s.reply a v r).Sound := by
  refine hs.frame rfl rfl (fun c hc => Or.inl ⟨c, hc, rfl⟩) (fun f hf => Or.inl hf)
    (fun w hw => Or.inl ⟨w, hw, rfl, rfl⟩) ?_
  intro r' hr'
  rcases List.mem_append.mp hr' with hr' | hr'
  · exact Or.inl hr'
  · rw [List.mem_singleton.mp hr']
    exact Or.inr hr

theorem Sound.calls (hs : s.Sound) {flights : List (Flight A B)} {waiters : List (Waiter A)}
    {pending : List A} (hf : ∀ f ∈ flights, f ∈ s.flights ∨ f.Sound s)
    (hw : ∀ w ∈ waiters, (∃ w' ∈ s.waiters, w.address = w'.address ∧ w.floor = w'.floor) ∨
      w.floor ≤ s.floor w.address) :
    Sound { s with flights := flights, waiters := waiters, _pending := pending } :=
  hs.frame rfl rfl (fun c hc => Or.inl ⟨c, hc, rfl⟩) hf hw fun _ hr => Or.inl hr

/-! ## Fetches -/

theorem Sound.immutable (hs : s.Sound) (hb : env.version b = ⊥) :
    s.floor (env.address b) = ⊥ := by
  refine le_bot_iff.mp ((hs.floor (env.address b)).trans_eq ?_)
  unfold held
  cases hfind : s.backend.find (env.address b) with
  | none => rfl
  | some b' =>
    by_contra hne
    have hmutable : env.mutable_block (env.address b') = true :=
      (env.mutable_block_version b').mp hne
    rw [Shelf.address_of_find hfind] at hmutable
    exact (env.mutable_block_version b).mpr hmutable hb

theorem Sound.fetch_cache (hs : s.Sound) {v : Option Int} {r : Reply B}
    (h : s._fetch_cache a v = some (r, s')) :
    s'.Sound ∧ s'.floor = s.floor ∧ r.AtLeast env (s.floor a) := by
  obtain ⟨⟨hchanged, hrest⟩, hfound⟩ := fetch_cache_spec h
  refine ⟨hs.write hchanged hrest (by simp), hrest.floor, ?_⟩
  rcases hfound with ⟨c, hc, hr⟩ | ⟨-, rfl | ⟨files, -, b, hb, rfl⟩⟩
  · obtain ⟨hmem, ha⟩ := mem_of_cached hc
    exact hr _ (ha ▸ hs.cached c hmem)
  · trivial
  · rw [← Shelf.address_of_find hb]
    exact (hs.immutable (files.stored a b hb).2).trans_le bot_le

theorem Sound.fetch (hs : s.Sound) (a : A) (v : Option Int) (hfloor : floor ≤ s.floor a) :
    (s._fetch a v floor).Sound := by
  unfold _fetch
  split
  next r s' h =>
    obtain ⟨hs', -, hr⟩ := hs.fetch_cache h
    exact hs'.reply (hr.mono hfloor)
  split
  · refine hs.calls (fun f hf => Or.inl hf) fun w hw => ?_
    rcases List.mem_append.mp hw with hw | hw
    · exact Or.inl ⟨w, hw, rfl, rfl⟩
    · rw [List.mem_singleton.mp hw]
      exact Or.inr hfloor
  · refine hs.calls (sends_sound fun f hf => ?_) fun w hw => Or.inl ⟨w, hw, rfl, rfl⟩
    rw [List.mem_singleton.mp hf]
    exact hfloor

theorem Sound.fetch_many (hs : s.Sound) (addresses : List (A × Option Int)) (missing : List A) :
    (s._fetch_many addresses missing).Sound := by
  induction addresses generalizing missing s with
  | nil =>
    refine hs.calls (sends_sound fun f hf => ?_) fun w hw => Or.inl ⟨w, hw, rfl, rfl⟩
    obtain ⟨a, -, rfl⟩ := List.mem_map.mp hf
    exact le_rfl
  | cons av addresses ih =>
    unfold _fetch_many
    split
    next s' h => exact (hs.fetch_cache h).1.reply trivial
    next r s' _ h =>
      obtain ⟨hs', hfloor, hr⟩ := hs.fetch_cache h
      exact ih (hs'.reply (hfloor ▸ hr)) missing
    next => exact ih hs _

/-! ## The backend -/

theorem Sound.stored (hs : s.Sound) (h : s.stored b = some s') :
    s'.Sound ∧ s'.held (env.address b) = env.version b := by
  obtain ⟨hle, rfl⟩ := stored_eq h
  have hheld : ∀ a, s.held a ≤ held { s with backend := s.backend.add b trivial } a := by
    intro a
    unfold held at hle ⊢
    rw [Shelf.find_add]
    by_cases ha : a = env.address b
    · rw [ha, Function.update_self]
      exact hle
    · rw [Function.update_of_ne ha]
  refine ⟨?_, ?_⟩
  · exact
      { floor := fun a => (hs.floor a).trans (hheld a)
        cached := hs.cached
        flights := by
          intro f hf
          have hsound := hs.flights f hf
          unfold Flight.Sound at hsound ⊢
          split at hsound
          · exact hsound
          · exact ⟨hsound.1, hsound.2.1, fun hst hl => (hsound.2.2 hst hl).trans (hheld _)⟩
          · trivial
        waiters := hs.waiters
        fetched := hs.fetched }
  · unfold held
    rw [Shelf.find_add, Function.update_self]
    rfl

omit [DecidableEq A] in
@[simp] theorem Flight.undone_call (stores : Bool) (f : Flight A B) :
    (f.undone stores).call = f.call := by
  unfold Flight.undone
  split <;> rfl

omit [DecidableEq A] in
@[simp] theorem Flight.undone_answer (stores : Bool) (f : Flight A B) :
    (f.undone stores).answer = f.answer := by
  unfold Flight.undone
  split <;> rfl

omit [DecidableEq A] in
@[simp] theorem Flight.undone_floor (stores : Bool) (f : Flight A B) :
    (f.undone stores).floor = f.floor := by
  unfold Flight.undone
  split <;> rfl

omit [DecidableEq A] in
theorem Flight.undone_live {stores : Bool} (hf : f.call.is_store) (ha : f.answer.isSome) :
    (f.undone stores).live = (f.live && !stores) := by
  unfold Flight.undone
  split
  next => rfl
  next hc _ => simp [hc, Call.is_store] at hf
  next hnot =>
    obtain ⟨r, hr⟩ := Option.isSome_iff_exists.mp ha
    cases hc : f.call with
    | store b resolver => exact absurd hr (fun heq => by simp_all)
    | _ => simp [hc, Call.is_store] at hf

theorem removed_floor (a a' : A) (s : Cache env) :
    (s.removed a).floor a' = if a' = a then ⊥ else s.floor a' :=
  Function.update_apply s.floor a ⊥ a'

theorem removed_held {a' : A} (ha : a' ≠ a) (s : Cache env) :
    (s.removed a).held a' = s.held a' := by
  unfold held Cache.removed
  rw [Shelf.find_remove, Function.update_of_ne ha]

theorem Flight.Sound.removed (hf : f.Sound s) (a : A) :
    Flight.Sound (s.removed a)
      (if f.call.address env = a then { f.undone true with floor := ⊥ } else f) := by
  unfold Flight.Sound at hf
  split
  next ha =>
    unfold Flight.Sound
    simp only [Flight.undone_answer, Flight.undone_call]
    split at hf
    next => exact bot_le
    next b heq =>
      refine ⟨hf.1, bot_le, fun hst hl => ?_⟩
      rw [Flight.undone_live hst (by simp [heq])] at hl
      simp at hl
    next => trivial
  next ha =>
    unfold Flight.Sound
    split at hf
    next =>
      rw [removed_floor, if_neg ha]
      exact hf
    next b _ =>
      rw [removed_held (hf.1 ▸ ha)]
      exact hf
    next => trivial

theorem Sound.removed (hs : s.Sound) (a : A) : (s.removed a).Sound := by
  have hle : ∀ a', (s.removed a).floor a' ≤ s.floor a' := by
    intro a'
    rw [removed_floor]
    split
    · exact bot_le
    · exact le_rfl
  constructor
  · intro a'
    by_cases ha : a' = a
    · rw [removed_floor, if_pos ha]
      exact bot_le
    · rw [removed_floor, if_neg ha, removed_held ha]
      exact hs.floor a'
  · exact fun c hc => (hle _).trans (hs.cached c hc)
  · intro f' hf'
    obtain ⟨f, hf, rfl⟩ := List.mem_map.mp hf'
    exact (hs.flights f hf).removed a
  · intro w' hw'
    obtain ⟨w, hw, rfl⟩ := List.mem_map.mp hw'
    split
    next => exact bot_le
    next ha =>
      rw [removed_floor, if_neg ha]
      exact hs.waiters w hw
  · exact hs.fetched

theorem Flight.Sound.back (hf : f.Sound s) :
    (f.undone false).Sound s := by
  unfold Flight.Sound at hf ⊢
  simp only [Flight.undone_answer, Flight.undone_call, Flight.undone_floor]
  split at hf
  next => exact hf
  next b heq =>
    refine ⟨hf.1, hf.2.1, fun hst hl => hf.2.2 hst ?_⟩
    simpa [Flight.undone_live hst (by simp [heq])] using hl
  next => trivial

theorem Sound.back (hs : s.Sound) (a : A) : (s.back a).Sound := by
  refine hs.frame rfl rfl (fun c hc => Or.inl ⟨c, hc, rfl⟩) ?_
    (fun w hw => Or.inl ⟨w, hw, rfl, rfl⟩) fun _ hr => Or.inl hr
  intro f' hf'
  obtain ⟨f, hf, rfl⟩ := List.mem_map.mp hf'
  right
  split
  · exact (hs.flights f hf).back
  · exact hs.flights f hf

theorem Sound.found (hs : s.Sound) {c : Call A B} (hf : floor ≤ s.floor (c.address env))
    (hc : c.is_store = false) :
    Flight.Sound s { call := c, answer := some (s.found (c.address env)), floor, live } := by
  have hheld := hs.floor (c.address env)
  unfold held at hheld
  unfold Cache.found
  cases hb : s.backend.find (c.address env) with
  | none => trivial
  | some b =>
    rw [hb] at hheld
    exact ⟨Shelf.address_of_find hb, hf.trans hheld, by simp [hc]⟩

theorem Sound.stores (hs : s.Sound) {c : Call A B} (hf : floor ≤ s.floor (c.address env))
    (ha : env.address b = c.address env) (h : s.stored b = some s') :
    s'.Sound ∧ Flight.Sound s' { call := c, answer := some (.block b), floor, live } := by
  obtain ⟨hsound, hheld⟩ := hs.stored h
  have hle : floor ≤ env.version b := (hf.trans (hs.floor _)).trans (ha ▸ (stored_eq h).1)
  exact ⟨hsound, ha, hle, fun _ _ => hheld.ge⟩

theorem Sound.serve (hs : s.Sound) {how : Served B} (hf : f.floor ≤ s.floor (f.call.address env))
    (h : serve f.call how s = some (r, s')) :
    s'.Sound ∧ Flight.Sound s' { f with answer := some r } := by
  obtain ⟨c, answer, floor, live⟩ := f
  unfold Cache.serve at h
  dsimp only at h hf ⊢
  split at h
  next =>
    cases h
    exact ⟨hs, trivial⟩
  next a v =>
    cases h
    exact ⟨hs, hs.found (c := .fetch a v) hf rfl⟩
  next a =>
    cases h
    exact ⟨hs, hs.found (c := .fetch_many a) hf rfl⟩
  next a v now =>
    cases h
    exact ⟨hs, hs.found (c := .refresh a v now) hf rfl⟩
  next =>
    split_ifs at h
    cases h
    exact ⟨hs, trivial⟩
  next b resolver =>
    obtain ⟨t, ht, heq⟩ := Option.map_eq_some_iff.mp h
    cases heq
    exact hs.stores (c := .store b resolver) hf rfl ht
  next b r =>
    split_ifs at h with ha
    obtain ⟨t, ht, heq⟩ := Option.map_eq_some_iff.mp h
    cases heq
    exact hs.stores (c := .store b true) hf ha ht
  next =>
    cases h
    exact ⟨hs.removed _, trivial⟩
  next => cases h

/-! ## The return of a call -/

omit [DecidableEq A] in
theorem missed_at_least (h : v ≤ env.version b) (local_version : Option Int) :
    (missed env local_version b).AtLeast env v := by
  unfold missed
  split
  · split
    next heq => exact h.trans_eq heq
    next => exact h
  · exact h

theorem Sound.opens (hs : s.Sound) (a : A) : (s.opens a).Sound := by
  refine hs.calls (fun f hf => Or.inl hf) fun w' hw' => ?_
  obtain ⟨w, hw, rfl⟩ := List.mem_map.mp hw'
  refine Or.inl ⟨w, hw, ?_⟩
  split <;> exact ⟨rfl, rfl⟩

theorem Sound.insert_cache (hs : s.Sound)
    (hb : s.inserts b → s.floor (env.address b) ≤ env.version b) :
    (s._insert_cache b).2.Sound := by
  refine hs.write (insert_cache_changed b s) (insert_cache_rest b s) fun w hw => ?_
  split at hw
  next hins =>
    cases hw
    exact hb hins
  next => cases hw

theorem insert_entry {c : CachedBlock B} (hc : c ∈ (s.insert b)._cache)
    (ha : env.address c.block = env.address b) : c.block = b := by
  unfold Cache.insert at hc
  split at hc
  · obtain ⟨c', hc', rfl⟩ := List.mem_map.mp hc
    by_cases ha' : env.address c'.block = env.address b
    · rw [if_pos ha']
    · rw [if_neg ha'] at ha
      exact absurd ha ha'
  next hnot =>
    unfold emplace at hc
    rw [if_neg hnot] at hc
    rcases List.mem_append.mp hc with hc | hc
    · exact absurd ha (not_cached hnot c hc)
    · rw [List.mem_singleton.mp hc]

theorem Sound.raise (hs : s.Sound)
    (hc : ∀ c ∈ s._cache, env.address c.block = a → v ≤ env.version c.block) (hv : v ≤ s.held a) :
    Sound { s with floor := Function.update s.floor a (max (s.floor a) v) } := by
  have hle : ∀ a', s.floor a' ≤ Function.update s.floor a (max (s.floor a) v) a' := by
    intro a'
    by_cases ha : a' = a
    · rw [ha, Function.update_self]
      exact le_max_left _ _
    · rw [Function.update_of_ne ha]
  constructor
  · intro a'
    by_cases ha : a' = a
    · rw [ha]
      exact (Function.update_self a _ s.floor).trans_le (max_le (hs.floor a) hv)
    · exact (Function.update_of_ne ha _ s.floor).trans_le (hs.floor a')
  · intro c hmem
    by_cases ha : env.address c.block = a
    · subst ha
      exact (Function.update_self _ _ s.floor).trans_le (max_le (hs.cached c hmem) (hc c hmem rfl))
    · exact (Function.update_of_ne ha _ s.floor).trans_le (hs.cached c hmem)
  · intro f hf
    have hsound := hs.flights f hf
    unfold Flight.Sound at hsound ⊢
    split at hsound
    · exact hsound.trans (hle _)
    · exact hsound
    · trivial
  · exact fun w hw => (hs.waiters w hw).trans (hle _)
  · exact hs.fetched

theorem Sound.store_returns (hs : s.Sound) (hlive : live → env.version b ≤ s.held (env.address b))
    (hb : env.version b ≠ ⊥ → s.floor (env.address b) ≤ env.version b) :
    (s.store_returns live (.block b)).Sound := by
  unfold Cache.store_returns
  dsimp only
  split
  next h =>
    refine hs.write (push_changed h s) (push_rest h s) fun w hw => ?_
    split at hw
    · cases hw
      exact (hs.immutable h).trans_le bot_le
    · cases hw
  next h =>
    have hrest := insert_rest b s
    have hins : (s.insert b).Sound := by
      refine hs.write (insert_changed b s) hrest fun w hw => ?_
      cases hw
      exact hb h
    cases live with
    | false => exact hins
    | true =>
      refine hins.raise (fun c hc ha => (insert_entry hc ha).symm ▸ le_rfl) ?_
      unfold held
      rw [hrest.backend]
      exact hlive rfl

theorem Sound.returned (hs : s.Sound) (hr : f.answer = some r) (hf : f.Sound s)
    (hb : ∀ w ∈ f.writes s r, s.floor (env.address w) ≤ env.version w) :
    (f.returns r s).Sound := by
  obtain ⟨c, answer, floor, live⟩ := f
  dsimp only at hr
  subst hr
  unfold Flight.returns
  cases r with
  | failed =>
    cases c with
    | fetch a v => exact (hs.opens a).reply trivial
    | fetch_many a => exact hs.reply trivial
    | refresh a v now => exact hs.write (filter_changed _ s) rfl (by simp)
    | store b resolver => exact hs
    | remove a => exact hs
  | null =>
    cases c with
    | fetch a v => exact (hs.opens a).reply trivial
    | fetch_many a => exact hs.reply trivial
    | refresh a v now =>
      have hchanged : Changed none s (s.modify a fun c => { c with last_fetched := now }) :=
        modify_changed fun _ _ _ => Or.inl rfl
      exact hs.write hchanged rfl (by simp)
    | store b resolver => exact hs
    | remove a =>
      exact hs.frame rfl rfl (fun c hc => Or.inl ⟨c, hc, rfl⟩) (fun f hf => Or.inl hf)
        (fun w hw => Or.inl ⟨w, hw, rfl, rfl⟩) fun r hr => Or.inl hr
  | block b =>
    obtain ⟨ha, hfloor, hlive⟩ := hf
    cases c with
    | fetch a v =>
      have hins : (s._insert_cache b).2.Sound :=
        hs.insert_cache fun h => hb b (by simp [Flight.writes, h])
      refine (hins.opens a).reply ?_
      split
      · exact missed_at_least hfloor v
      · trivial
    | fetch_many a =>
      have hins : (s._insert_cache b).2.Sound :=
        hs.insert_cache fun h => hb b (by simp [Flight.writes, h])
      refine hins.reply ?_
      split
      · exact hfloor
      · trivial
    | refresh a v now =>
      exact hs.write (refresh_returns_changed a now b s) rfl hb
    | store b' resolver =>
      exact hs.store_returns (hlive rfl) fun h => hb b (by simp [Flight.writes, h])
    | remove a => exact hs

/-! ## Steps -/

theorem Sound.step {act : Action A B} (hs : s.Sound) (hages : ¬ s.Ages act)
    (h : s.step act = some s') : s'.Sound := by
  have hb : ∀ w ∈ s.writes act, s.floor (env.address w) ≤ env.version w := by
    intro w hw
    by_contra hlt
    exact hages ⟨w, hw, not_le.mp hlt⟩
  cases act with
  | fetch a v =>
    cases h
    exact hs.fetch a v le_rfl
  | fetch_many addresses =>
    cases h
    exact hs.fetch_many addresses []
  | store b resolver =>
    cases h
    refine hs.frame rfl rfl (fun c hc => Or.inl ⟨c, hc, rfl⟩) (sends_sound fun f hf => ?_)
      (fun w hw => Or.inl ⟨w, hw, rfl, rfl⟩) fun r hr => Or.inl hr
    rw [List.mem_singleton.mp hf]
    exact bot_le
  | remove a =>
    cases h
    have hdrop : (s.drop a).Sound := hs.write (drop_changed a s) (drop_rest a s) (by simp)
    refine hdrop.calls (sends_sound fun f hf => ?_) fun w hw => Or.inl ⟨w, hw, rfl, rfl⟩
    rw [List.mem_singleton.mp hf]
    exact bot_le
  | insert b =>
    cases h
    exact hs.write (insert_changed b s) (insert_rest b s) hb
  | clear =>
    cases h
    have hchanged : Changed none s { s with _cache := [] } :=
      ⟨by simp, fun c hc => Or.inl ⟨c, hc, rfl⟩⟩
    exact hs.write hchanged rfl (by simp)
  | cleanup =>
    simp only [Cache.step] at h
    split_ifs at h
    cases h
    exact hs.frame rfl rfl (fun c hc => Or.inl ⟨c, List.mem_of_mem_filter hc, rfl⟩)
      (fun f hf => Or.inl hf) (fun w hw => Or.inl ⟨w, hw, rfl, rfl⟩) fun r hr => Or.inl hr
  | batch =>
    simp only [Cache.step] at h
    split_ifs at h
    cases h
    refine hs.frame rfl rfl (fun c hc => Or.inl ⟨c, hc, rfl⟩) (sends_sound fun f hf => ?_)
      (fun w hw => Or.inl ⟨w, hw, rfl, rfl⟩) fun r hr => Or.inl hr
    obtain ⟨av, -, rfl⟩ := List.mem_map.mp hf
    exact bot_le
  | answer i how =>
    simp only [Cache.step, answer] at h
    split at h
    next => cases h
    next f hf =>
      split at h
      · cases h
      next hnone =>
        obtain ⟨⟨r, t⟩, ht, rfl⟩ := Option.map_eq_some_iff.mp h
        have hsound := hs.flights f (List.mem_of_getElem? hf)
        unfold Flight.Sound at hsound
        rw [Option.not_isSome_iff_eq_none.mp hnone] at hsound
        obtain ⟨ht', hr⟩ := hs.serve hsound ht
        refine ht'.calls (fun f' hf' => ?_) fun w hw => Or.inl ⟨w, hw, rfl, rfl⟩
        rcases List.mem_or_eq_of_mem_set hf' with hf' | rfl
        · exact Or.inl hf'
        · exact Or.inr hr
  | returns i =>
    simp only [Cache.step, Cache.returns] at h
    split at h
    next => cases h
    next f hf =>
      obtain ⟨r, hr, rfl⟩ := Option.map_eq_some_iff.mp h
      simp only [writes, hf, hr, Option.bind_some] at hb
      have hrest : Sound { s with flights := s.flights.eraseIdx i } :=
        hs.calls (fun f hf => Or.inl (List.mem_of_mem_eraseIdx hf))
          fun w hw => Or.inl ⟨w, hw, rfl, rfl⟩
      have hsound := hs.flights f (List.mem_of_getElem? hf)
      exact hrest.returned hr (hsound.congr rfl rfl) hb
  | resume i =>
    simp only [Cache.step, resume] at h
    split at h
    next => cases h
    next w hw =>
      split_ifs at h
      cases h
      have hrest : Sound { s with waiters := s.waiters.eraseIdx i } :=
        hs.calls (fun f hf => Or.inl hf)
          fun w hw => Or.inl ⟨w, List.mem_of_mem_eraseIdx hw, rfl, rfl⟩
      exact hrest.fetch w.address w.local_version (hs.waiters w (List.mem_of_getElem? hw))
  | created b => exact ((hs.back (env.address b)).stored h).1
  | removed a =>
    cases h
    exact hs.removed a
  | wait d =>
    cases h
    exact hs.frame rfl rfl (fun c hc => Or.inl ⟨c, hc, rfl⟩) (fun f hf => Or.inl hf)
      (fun w hw => Or.inl ⟨w, hw, rfl, rfl⟩) fun r hr => Or.inl hr

theorem Sound.never_back (hs : s.Sound) : s.NeverBack :=
  ⟨hs.fetched, fun _ _ _ _ h => (hs.fetch_cache h).2.2⟩

/-! ## A block below its floor -/

theorem cached_of_mem {c : CachedBlock B} (hc : c ∈ s._cache)
    (ha : env.address c.block = env.address b)
    (hall : ∀ c ∈ s._cache, env.address c.block = env.address b → c.block = b) :
    ∃ c, s.cached (env.address b) = some c ∧ c.block = b := by
  have hsome : (s.cached (env.address b)).isSome := by
    by_contra hnot
    exact not_cached hnot c hc ha
  obtain ⟨c', hc'⟩ := Option.isSome_iff_exists.mp hsome
  obtain ⟨hmem, ha'⟩ := mem_of_cached hc'
  exact ⟨c', hc', hall c' hmem ha'⟩

theorem insert_cached (b : B) (s : Cache env) :
    ∃ c, (s.insert b).cached (env.address b) = some c ∧ c.block = b := by
  have hmem : ∃ c ∈ (s.insert b)._cache, c.block = b := by
    unfold Cache.insert
    split
    next h =>
      obtain ⟨c, hc⟩ := Option.isSome_iff_exists.mp h
      obtain ⟨hmem, ha⟩ := mem_of_cached hc
      refine ⟨_, List.mem_map.mpr ⟨c, hmem, rfl⟩, ?_⟩
      rw [if_pos ha]
    next h =>
      unfold emplace
      rw [if_neg h]
      exact ⟨_, List.mem_append_right _ (List.mem_singleton.mpr rfl), rfl⟩
  obtain ⟨c, hc, hb⟩ := hmem
  exact cached_of_mem hc (congrArg env.address hb) fun c hc ha => insert_entry hc ha

theorem insert_cache_eq (hb : env.version b ≠ ⊥) (h : s.inserts b) :
    (s._insert_cache b).2 = s.insert b := by
  simp only [inserts, if_neg hb, Bool.and_eq_true, decide_eq_true_eq] at h
  obtain ⟨hv, hc, hnone⟩ := h
  have habsent : s.cached (env.address b) = none := by simpa using hnone
  simp [_insert_cache, Cache.insert, hv, hb, hc, habsent]

theorem insert_cache_cached (hb : env.version b ≠ ⊥) (h : s.inserts b) :
    (∃ c, (s._insert_cache b).2.cached (env.address b) = some c ∧ c.block = b) ∧
      ∀ a, s.floor a ≤ (s._insert_cache b).2.floor a := by
  rw [insert_cache_eq hb h]
  exact ⟨insert_cached b s, fun a => (congrFun (insert_rest b s).floor a).ge⟩

theorem refresh_cached {now : Int} (ha : env.address b = a) (h : (s.cached a).isSome) :
    ∃ c, (s.refresh_returns a now (.block b)).cached (env.address b) = some c ∧ c.block = b := by
  have hall : ∀ c ∈ (s.refresh_returns a now (.block b))._cache,
      env.address c.block = env.address b → c.block = b := by
    intro c hc hca
    obtain ⟨c', hc', rfl⟩ := List.mem_map.mp hc
    by_cases ha' : env.address c'.block = a
    · rw [if_pos ha']
    · rw [if_neg ha'] at hca
      exact absurd (hca.trans ha) ha'
  obtain ⟨c, hc⟩ := Option.isSome_iff_exists.mp h
  obtain ⟨hmem, hca⟩ := mem_of_cached hc
  refine cached_of_mem (List.mem_map.mpr ⟨c, hmem, rfl⟩) ?_ hall
  rw [if_pos hca]

theorem returned_cached (hr : f.answer = some r) (hf : f.Sound s) (hb : b ∈ f.writes s r)
    (hm : env.version b ≠ ⊥) :
    (∃ c, (f.returns r s).cached (env.address b) = some c ∧ c.block = b) ∧
      ∀ a, s.floor a ≤ (f.returns r s).floor a := by
  obtain ⟨c, answer, floor, live⟩ := f
  dsimp only at hr
  subst hr
  cases r with
  | failed => simp [Flight.writes] at hb
  | null => simp [Flight.writes] at hb
  | block b' =>
    cases c with
    | fetch a v | fetch_many a =>
      simp only [Flight.writes, Option.mem_def, Option.ite_none_right_eq_some,
        Option.some.injEq] at hb
      obtain ⟨hins, rfl⟩ := hb
      exact insert_cache_cached hm hins
    | refresh a v now =>
      simp only [Flight.writes, Option.mem_def, Option.ite_none_right_eq_some,
        Option.some.injEq] at hb
      obtain ⟨hc, rfl⟩ := hb
      exact ⟨refresh_cached hf.1 hc, fun a => le_rfl⟩
    | store b'' resolver =>
      simp only [Flight.writes, Option.mem_def, Option.ite_none_right_eq_some,
        Option.some.injEq] at hb
      obtain ⟨-, rfl⟩ := hb
      unfold Flight.returns Cache.store_returns
      simp only [hm, ↓reduceDIte]
      refine ⟨insert_cached b' s, fun a => ?_⟩
      have hfloor := (insert_rest b' s).floor
      split
      · rw [hfloor]
        by_cases ha : a = env.address b'
        · rw [ha, Function.update_self]
          exact le_max_left _ _
        · rw [Function.update_of_ne ha]
      · rw [hfloor]
    | remove a => simp [Flight.writes] at hb

theorem Ages.goes_back {act : Action A B} (hages : s.Ages act) (hs : s.Sound)
    (h : s.step act = some s') : ¬ s'.NeverBack := by
  obtain ⟨b, hb, hlt⟩ := hages
  have hm : env.version b ≠ ⊥ := by
    intro hbot
    rw [hs.immutable hbot] at hlt
    exact not_lt_bot hlt
  have hcached : (∃ c, s'.cached (env.address b) = some c ∧ c.block = b) ∧
      ∀ a, s.floor a ≤ s'.floor a := by
    cases act with
    | insert b' =>
      cases h
      cases hb
      exact ⟨insert_cached b s, fun a => (congrFun (insert_rest b s).floor a).ge⟩
    | returns i =>
      simp only [Cache.step, Cache.returns] at h
      split at h
      next => cases h
      next f hf =>
        obtain ⟨r, hr, rfl⟩ := Option.map_eq_some_iff.mp h
        simp only [writes, hf, hr, Option.bind_some] at hb
        have hsound : f.Sound { s with flights := s.flights.eraseIdx i } :=
          (hs.flights f (List.mem_of_getElem? hf)).congr rfl rfl
        exact returned_cached hr hsound hb hm
    | _ => simp [writes] at hb
  obtain ⟨⟨c, hc, rfl⟩, hfloor⟩ := hcached
  intro hnever
  have hfound := hnever.2 (env.address c.block) none (.block c.block) _ (by
    unfold _fetch_cache
    rw [hc])
  exact absurd hlt (not_lt.mpr ((hfloor _).trans hfound))

/-! ## Runs -/

theorem Sound.loaded (hs : s.Sound) : s.loaded.Sound := by
  unfold Cache.loaded _load_disk_cache
  split
  · split
    · exact hs
    · exact hs.frame rfl rfl (fun c hc => Or.inl ⟨c, hc, rfl⟩) (fun f hf => Or.inl hf)
        (fun w hw => Or.inl ⟨w, hw, rfl, rfl⟩) fun r hr => Or.inl hr
  · exact hs

theorem new_sound (backend : Shelf env fun _ => True) (size : Option Int)
    (invalidation ttl : Option Int) (path : Option (Shelf env fun b => env.version b = ⊥))
    (disk_size : Option Nat) (clock : Int) :
    (new backend size invalidation ttl path disk_size clock).Sound := by
  refine Sound.loaded ⟨fun _ => bot_le, ?_, ?_, ?_, ?_⟩
  all_goals simp [start]

/-- The versions that are fetched never go back, in each state of a run, exactly when no step writes
a block that is older than what a local store returned with since. -/
theorem cache_never_goes_back_iff {backend : Shelf env fun _ => True} {size : Option Int}
    {invalidation ttl : Option Int} {path : Option (Shelf env fun b => env.version b = ⊥)}
    {disk_size : Option Nat} {clock : Int} {acts : List (Action A B)} {s : Cache env}
    (hrun : Run step anyStep (new backend size invalidation ttl path disk_size clock) acts s) :
    (∀ done t, done <+: acts →
        Run step anyStep (new backend size invalidation ttl path disk_size clock) done t →
        t.NeverBack) ↔
      Run step (fun s act => ¬ s.Ages act)
        (new backend size invalidation ttl path disk_size clock) acts s :=
  hrun.always_iff (new_sound backend size invalidation ttl path disk_size clock)
    (fun _ hs => hs.never_back) (fun _ _ _ hs hages h => hs.step hages h)
    fun _ _ _ hs _ hages h => Ages.goes_back (not_not.mp hages) hs h

instance (v : Version) (r : Reply B) : Decidable (r.AtLeast env v) :=
  match r with
  | .failed => isTrue trivial
  | .same v' => inferInstanceAs (Decidable (v ≤ .of v'))
  | .block b => inferInstanceAs (Decidable (v ≤ env.version b))

/-- A block of version 2 is stored while an older one is being fetched, and then fetched. -/
theorem cache_never_goes_back_dated :
    ∃ s : Cache dated, s.NeverBack ∧ s.fetched.map Result.floor = [⊥, .of 2] := by
  have hrun : ((exec step (fun s act => ¬ s.Ages act) (new (Shelf.empty.add (0, 1) trivial))
      [.fetch 0, .answer 0, .store (0, 2), .answer 1, .returns 1, .returns 0, .fetch 0]).map
        fun s : Cache dated => s.fetched.map Result.floor) = some [⊥, .of 2] := by decide
  obtain ⟨s, hs, hfloors⟩ := Run.of_exec_map hrun
  have hany := hs.mono fun _ _ _ => trivial
  exact ⟨s, (cache_never_goes_back_iff hany).mpr hs _ s List.prefix_rfl hany, hfloors⟩

/-- A refresh reads version 2, which another node stored. Version 3 is stored, and the refresh
returns. -/
theorem a_refresh_goes_back :
    ¬ ∀ (backend : Shelf dated fun _ => True) (acts : List (Action Nat (Nat × Int)))
      (s : Cache dated), Run step anyStep (new backend) acts s →
        ∀ r ∈ s.fetched, r.reply.AtLeast dated r.floor := by
  intro h
  have hrun : ((exec step anyStep (new (Shelf.empty.add (0, 1) trivial))
      [.fetch 0, .answer 0, .returns 0, .wait 16, .created (0, 2), .cleanup, .batch, .answer 0,
        .store (0, 3), .answer 1, .returns 1, .returns 0, .fetch 0]).map fun s : Cache dated =>
          decide (∀ r ∈ s.fetched, r.reply.AtLeast dated r.floor)) = some false := by decide
  obtain ⟨s, hs, hfalse⟩ := Run.of_exec_map hrun
  exact of_decide_eq_false hfalse (h _ _ s hs)

end Cache

end memo.consensus
