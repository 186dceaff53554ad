-- The storage of a node without consensus: `Local::store` and `Local::remove`
-- of one address. A store reads the block that is there, has the new block
-- validated against it, and writes, and it lets go of the processor before
-- each access and in the validations. The calls are interleaved there.
import Memo.LocalPeer
import Memo.Runs

open runs

namespace memo.Local

/-! ## The calls -/

/-- A block in the storage, and which write of the address left it there. -/
structure Stored (B : Type) where
  block : B
  nth : Nat
deriving DecidableEq

/-- What the two calls throw. -/
inductive Failure (B : Type) where
  | validation_failed (reason : String)
  | conflict (reason : String) (current : B)
  | collision
  | missing_block
  | error

/-- Where a call is. `seen` counts the writes there were when a store read the address. -/
inductive Call (B : Type) where
  | validate (block : B) (mode : StoreMode)
  | get (block : B) (mode : StoreMode)
  | compare (block : B) (mode : StoreMode) (previous : Stored B) (seen : Nat)
  | set (block : B) (mode : StoreMode) (previous : Option (Stored B)) (seen : Nat)
  | get_removed
  | validate_remove (previous : B)
  | erase
  | hook
  | returned
  | threw (e : Failure B)

variable {B : Type}

/-- The block to write of a store that has read the address, and what it read. -/
def Call.read : Call B → Option (B × Option (Stored B) × Nat)
  | .compare block _ previous seen => some (block, some previous, seen)
  | .set block _ previous seen => some (block, previous, seen)
  | _ => none

/-- A write: the block the store had validated its own against, and the one that was there. -/
structure Write (B : Type) where
  block : B
  validated : Option (Stored B)
  replaced : Option (Stored B)

/-- The address, the calls on it, all its writes, and the versions of the mutable blocks that
were stored there since it was last removed. -/
structure State (B : Type) where
  stored : Option (Stored B)
  calls : Nat → Option (Call B)
  writes : List (Write B)
  versions : List Int

/-- The address as the first calls find it. `version` is that of a mutable block. -/
def State.init (version : B → Option Int) (block : Option B) : State B :=
  { stored := block.map (⟨·, 0⟩)
    calls := fun _ => none
    writes := []
    versions := (block.bind version).toList }

def State.goto (s : State B) (k : Nat) (c : Call B) : State B :=
  { s with calls := Function.update s.calls k (some c) }

def State.throws (s : State B) (k : Nat) (e : Failure B) : State B := s.goto k (.threw e)

/-- The block is in the storage, and the `on_store` hook is next. -/
def State.write (version : B → Option Int) (s : State B) (k : Nat) (block : B)
    (previous : Option (Stored B)) : State B :=
  { stored := some ⟨block, s.writes.length + 1⟩
    calls := Function.update s.calls k (some .hook)
    writes := s.writes ++ [⟨block, previous, s.stored⟩]
    versions := s.versions ++ (version block).toList }

def State.remove (s : State B) (k : Nat) : State B :=
  { s with stored := none, versions := [], calls := Function.update s.calls k (some .hook) }

/-! ## The steps -/

inductive Action (B : Type) where
  | store (k : Nat) (block : B) (mode : StoreMode)
  | remove (k : Nat)
  /-- The call runs up to where it yields next. `res` is the answer of a validation. -/
  | turn (k : Nat) (res : ValidationResult)
  /-- The storage, or a block that a validation fetches, throws. -/
  | throws (k : Nat)

/-- The text of the conflict of two versions. -/
def not_superior (v current : Int) : String :=
  "version " ++ toString v ++ " is not superior to current version " ++ toString current

/-- `Local::store` after `_storage->get`. -/
def State.got (version : B → Option Int) (s : State B) (k : Nat) (block : B) (mode : StoreMode) :
    State B :=
  match s.stored with
  | none => s.goto k (.set block mode none s.writes.length)
  | some previous =>
    match version block, version previous.block with
    | none, _ => s.goto k (.compare block mode previous s.writes.length)
    | some _, none => s.throws k (.validation_failed "overwriting a non-mutable block")
    | some v, some current =>
      if v ≤ current then s.throws k (.conflict (not_superior v current) previous.block)
      else s.goto k (.compare block mode previous s.writes.length)

/-- `_storage->set`: an insertion is refused where there is a block, an update where there is
none. -/
def State.set (version : B → Option Int) (s : State B) (k : Nat) (block : B) (mode : StoreMode)
    (previous : Option (Stored B)) : State B :=
  match mode, s.stored with
  | .insert, some _ => s.throws k .collision
  | .update, none => s.throws k .missing_block
  | _, _ => s.write version k block previous

/-- `Local::store` and `Local::remove`, from one yield to the next. -/
def State.turn (version : B → Option Int) (dht : elle.Version) (s : State B) (k : Nat)
    (res : ValidationResult) : Call B → Option (State B)
  | .validate block mode => some <|
    match res with
    | .success => s.goto k (.get block mode)
    | .conflict reason | .failure reason => s.throws k (.validation_failed reason)
  | .get block mode => some (s.got version k block mode)
  | .compare block mode previous seen => some <|
    match res with
    | .success => s.goto k (.set block mode (some previous) seen)
    | .conflict reason => s.throws k (.conflict reason previous.block)
    | .failure reason => s.throws k (.validation_failed reason)
  | .set block mode previous _ => some (s.set version k block mode previous)
  | .get_removed => some <|
    if ⟨0, 4, 0⟩ ≤ dht then
      match s.stored with
      | none => s.throws k .missing_block
      | some previous => s.goto k (.validate_remove previous.block)
    else s.goto k .erase
  | .validate_remove previous => some <|
    match res with
    | .success => s.goto k .erase
    | .conflict reason => s.throws k (.conflict reason previous)
    | .failure reason => s.throws k (.validation_failed reason)
  | .erase => some <|
    match s.stored with
    | none => s.throws k .missing_block
    | some _ => s.remove k
  | .hook => some (s.goto k .returned)
  | .returned | .threw _ => none

/-- One step of the calls on the address. -/
def State.step (version : B → Option Int) (dht : elle.Version) (s : State B) :
    Action B → Option (State B)
  | .store k block mode => if (s.calls k).isNone then s.goto k (.validate block mode) else none
  | .remove k => if (s.calls k).isNone then s.goto k .get_removed else none
  | .turn k res => (s.calls k).bind (s.turn version dht k res)
  | .throws k => if (s.calls k).isSome then s.throws k .error else none

/-! ## What the calls keep -/

/-- Storing is atomic: the versions increase from one removal to the next, and a block that is
replaced is the very one the new block was validated against, so that no store is overwritten by
one that did not see it. -/
structure State.Atomic (s : State B) : Prop where
  increasing : s.versions.Pairwise (· < ·)
  replaced_seen : ∀ w ∈ s.writes, w.replaced ≠ none → w.replaced = w.validated

/-- A store that has read the address, and has not written yet. -/
structure State.Reads (version : B → Option Int) (s : State B) (block : B)
    (previous : Option (Stored B)) (seen : Nat) : Prop where
  seen_le : seen ≤ s.writes.length
  nth : ∀ r, previous = some r → r.nth = seen
  current : seen = s.writes.length → s.stored = none ∨ s.stored = previous
  newer : ∀ r v, previous = some r → version block = some v →
    ∃ current, version r.block = some current ∧ current < v

/-- What holds as long as no store writes over a write it did not see. -/
structure State.Sound (version : B → Option Int) (s : State B) : Prop where
  atomic : s.Atomic
  nth : ∀ r, s.stored = some r → r.nth = s.writes.length
  bound : ∀ r v, s.stored = some r → version r.block = some v → ∀ x ∈ s.versions, x ≤ v
  emptied : s.stored = none → s.versions = []
  reads : ∀ k c, s.calls k = some c → ∀ block previous seen,
    c.read = some (block, previous, seen) → s.Reads version block previous seen

/-- An update that finds a block at the address writes over it: then no other store has written
there since it read the address. -/
def Undisturbed (s : State B) : Action B → Prop
  | .turn k _ => ∀ block previous seen, s.calls k = some (.set block .update previous seen) →
      s.stored ≠ none → seen = s.writes.length
  | _ => True

variable {version : B → Option Int} {dht : elle.Version} {s s' : State B} {k seen : Nat}
  {block : B} {previous : Option (Stored B)}

theorem init_sound (block : Option B) : (State.init version block).Sound version := by
  constructor
  · constructor
    · cases h : block.bind version <;> simp [State.init, h]
    · simp [State.init]
  · rintro r hr
    obtain ⟨b, -, rfl⟩ := Option.map_eq_some_iff.mp hr
    rfl
  · rintro r v hr hv x hx
    obtain ⟨b, rfl, rfl⟩ := Option.map_eq_some_iff.mp hr
    have hx' : x = v := by simpa [State.init, show version b = some v from hv] using hx
    exact hx'.le
  · intro h
    have hnone : block = none := by simpa [State.init] using h
    simp [State.init, hnone]
  · intro k c h
    simp [State.init] at h

theorem State.Sound.goto {c : Call B} (h : s.Sound version)
    (hc : ∀ block previous seen, c.read = some (block, previous, seen) →
      s.Reads version block previous seen) : (s.goto k c).Sound version := by
  refine ⟨⟨h.atomic.increasing, h.atomic.replaced_seen⟩, h.nth, h.bound, h.emptied, ?_⟩
  intro j d hj block previous seen hr
  have hreads : s.Reads version block previous seen := by
    by_cases hjk : j = k
    · subst hjk
      simp only [State.goto, Function.update_self, Option.some.injEq] at hj
      subst hj
      exact hc _ _ _ hr
    · simp only [State.goto, Function.update_of_ne hjk] at hj
      exact h.reads j d hj _ _ _ hr
  exact { hreads with }

theorem State.Sound.plain {c : Call B} (h : s.Sound version) (hc : c.read = none) :
    (s.goto k c).Sound version :=
  h.goto fun _ _ _ hr => by simp [hc] at hr

theorem State.Sound.got {mode : StoreMode} (h : s.Sound version) :
    (s.got version k block mode).Sound version := by
  have hnew : ∀ previous, s.stored = previous →
      (∀ r v, previous = some r → version block = some v →
        ∃ current, version r.block = some current ∧ current < v) →
      s.Reads version block previous s.writes.length := by
    rintro previous rfl hnewer
    exact ⟨le_refl _, h.nth, fun _ => Or.inr rfl, hnewer⟩
  unfold State.got
  split
  · rename_i hstored
    apply h.goto
    rintro _ _ _ ⟨⟩
    exact hnew none hstored (by simp)
  · rename_i r hstored
    split
    · rename_i hv
      apply h.goto
      rintro _ _ _ ⟨⟩
      exact hnew _ hstored (by simp [hv])
    · exact h.plain rfl
    · rename_i v current hv hcurrent
      split_ifs with hle
      · exact h.plain rfl
      · apply h.goto
        rintro _ _ _ ⟨⟩
        refine hnew _ hstored ?_
        rintro _ w ⟨⟩ hw
        obtain rfl := Option.some.inj (hv.symm.trans hw)
        exact ⟨current, hcurrent, by omega⟩

theorem State.Sound.write (h : s.Sound version) (hr : s.Reads version block previous seen)
    (hc : s.stored ≠ none → seen = s.writes.length) :
    (s.write version k block previous).Sound version := by
  have hsame : s.stored ≠ none → s.stored = previous := fun hne =>
    (hr.current (hc hne)).resolve_left hne
  have hless : ∀ v, version block = some v → ∀ x ∈ s.versions, x < v := by
    intro v hv x hx
    cases hstored : s.stored with
    | none => simp [h.emptied hstored] at hx
    | some r =>
      have hp : previous = some r := (hsame (by simp [hstored])).symm.trans hstored
      obtain ⟨current, hcurrent, hlt⟩ := hr.newer r v hp hv
      exact (h.bound r current hstored hcurrent x hx).trans_lt hlt
  constructor
  · constructor
    · cases hv : version block with
      | none => simpa [State.write, hv] using h.atomic.increasing
      | some v =>
        simpa [State.write, hv, List.pairwise_append] using ⟨h.atomic.increasing, hless v hv⟩
    · intro w hw hne
      rcases List.mem_append.mp hw with hw | hw
      · exact h.atomic.replaced_seen w hw hne
      · obtain rfl := List.mem_singleton.mp hw
        exact hsame hne
  · rintro r ⟨⟩
    simp [State.write]
  · rintro r v ⟨⟩ hv x hx
    replace hv : version block = some v := hv
    rcases List.mem_append.mp hx with hx | hx
    · exact (hless v hv x hx).le
    · have hx' : x = v := by simpa [hv, eq_comm] using hx
      exact hx'.le
  · intro hnone
    simp [State.write] at hnone
  · intro j d hj block' previous' seen' hread
    by_cases hjk : j = k
    · subst hjk
      simp only [State.write, Function.update_self, Option.some.injEq] at hj
      subst hj
      simp [Call.read] at hread
    · simp only [State.write, Function.update_of_ne hjk] at hj
      obtain ⟨hle, hnth, -, hnewer⟩ := h.reads j d hj _ _ _ hread
      have hlen : (s.write version k block previous).writes.length = s.writes.length + 1 := by
        simp [State.write]
      exact ⟨by omega, hnth, fun heq => by omega, hnewer⟩

theorem State.Sound.set {mode : StoreMode} (h : s.Sound version)
    (hr : s.Reads version block previous seen)
    (hc : mode = .update → s.stored ≠ none → seen = s.writes.length) :
    (s.set version k block mode previous).Sound version := by
  unfold State.set
  cases mode with
  | insert =>
    cases hstored : s.stored with
    | none => exact h.write hr fun hne => absurd hstored hne
    | some r => exact h.plain rfl
  | update =>
    cases hstored : s.stored with
    | none => exact h.plain rfl
    | some r => exact h.write hr (hc rfl)

theorem State.Sound.remove (h : s.Sound version) : (s.remove k).Sound version := by
  refine ⟨⟨List.Pairwise.nil, h.atomic.replaced_seen⟩, ?_, ?_, fun _ => rfl, ?_⟩
  · simp [State.remove]
  · simp [State.remove]
  · intro j d hj block previous seen hread
    by_cases hjk : j = k
    · subst hjk
      simp only [State.remove, Function.update_self, Option.some.injEq] at hj
      subst hj
      simp [Call.read] at hread
    · simp only [State.remove, Function.update_of_ne hjk] at hj
      obtain ⟨hle, hnth, -, hnewer⟩ := h.reads j d hj _ _ _ hread
      exact ⟨hle, hnth, fun _ => Or.inl rfl, hnewer⟩

theorem State.Sound.turn {res : ValidationResult} {c : Call B} (h : s.Sound version)
    (hk : s.calls k = some c) (hc : Undisturbed s (.turn k res))
    (hs : s.turn version dht k res c = some s') : s'.Sound version := by
  have hreads := h.reads k c hk
  cases c with
  | validate block mode =>
    obtain rfl := Option.some.inj hs
    cases res <;> exact h.plain rfl
  | get block mode =>
    obtain rfl := Option.some.inj hs
    exact h.got
  | compare block mode previous seen =>
    obtain rfl := Option.some.inj hs
    cases res with
    | success =>
      apply h.goto
      rintro _ _ _ ⟨⟩
      exact hreads _ _ _ rfl
    | conflict reason => exact h.plain rfl
    | failure reason => exact h.plain rfl
  | set block mode previous seen =>
    obtain rfl := Option.some.inj hs
    apply h.set (hreads _ _ _ rfl)
    rintro rfl
    exact hc block previous seen hk
  | get_removed =>
    obtain rfl := Option.some.inj hs
    split_ifs
    · cases s.stored <;> exact h.plain rfl
    · exact h.plain rfl
  | validate_remove previous =>
    obtain rfl := Option.some.inj hs
    cases res <;> exact h.plain rfl
  | erase =>
    obtain rfl := Option.some.inj hs
    split
    · exact h.plain rfl
    · exact h.remove
  | hook =>
    obtain rfl := Option.some.inj hs
    exact h.plain rfl
  | returned => cases hs
  | threw e => cases hs

theorem State.Sound.step {a : Action B} (h : s.Sound version) (hc : Undisturbed s a)
    (hs : s.step version dht a = some s') : s'.Sound version := by
  cases a with
  | store k block mode | remove k =>
    simp only [State.step, Option.ite_none_right_eq_some] at hs
    obtain rfl := Option.some.inj hs.2
    exact h.plain rfl
  | turn k res =>
    obtain ⟨c, hk, hs⟩ := Option.bind_eq_some_iff.mp hs
    exact h.turn hk hc hs
  | throws k =>
    simp only [State.step, Option.ite_none_right_eq_some] at hs
    obtain rfl := Option.some.inj hs.2
    exact h.plain rfl

theorem State.Sound.overwrites {a : Action B} (h : s.Sound version) (hc : ¬ Undisturbed s a)
    (hs : s.step version dht a = some s') : ¬ s'.Atomic := by
  cases a with
  | turn k res =>
    simp only [Undisturbed, not_forall] at hc
    obtain ⟨block, previous, seen, hk, hne, hseen⟩ := hc
    obtain ⟨r, hstored⟩ := Option.ne_none_iff_exists'.mp hne
    simp only [State.step, hk, Option.bind_some, State.turn, State.set, hstored] at hs
    obtain rfl := Option.some.inj hs
    intro hatomic
    have hsame : s.stored = previous :=
      hatomic.replaced_seen ⟨block, previous, s.stored⟩ (by simp [State.write]) hne
    have hnth : r.nth = seen := (h.reads k _ hk _ _ _ rfl).nth r (hsame.symm.trans hstored)
    exact hseen (hnth.symm.trans (h.nth r hstored))
  | store k block mode => exact absurd trivial hc
  | remove k => exact absurd trivial hc
  | throws k => exact absurd trivial hc

/-- Storing without consensus is atomic in the runs where no update writes over a block that was
stored after it had read the address, and in no other. -/
theorem stores_are_atomic_iff (version : B → Option Int) (dht : elle.Version) (block : Option B)
    (as : List (Action B)) (s : State B)
    (hrun : Run (State.step version dht) anyStep (State.init version block) as s) :
    (∀ done t, done <+: as →
      Run (State.step version dht) anyStep (State.init version block) done t → t.Atomic) ↔
      Run (State.step version dht) Undisturbed (State.init version block) as s :=
  hrun.always_iff (init_sound block) (fun _ h => h.atomic) (fun _ _ _ h hc hs => h.step hc hs)
    fun _ _ _ h _ hc hs => h.overwrites hc hs

/-- Blocks that are their own versions. -/
def numbered (n : Nat) : Option Int := some n

/-- Version 2 over version 1. -/
def one_update : List (Action Nat) :=
  [.store 0 2 .update, .turn 0 .success, .turn 0 .success, .turn 0 .success, .turn 0 .success]

theorem one_update_is_atomic : ∃ s : State Nat,
    Run (State.step numbered ⟨0, 9, 0⟩) anyStep (State.init numbered (some 1)) one_update s ∧
    s.versions = [1, 2] ∧
    ((∀ done t, done <+: one_update → Run (State.step numbered ⟨0, 9, 0⟩) anyStep
        (State.init numbered (some 1)) done t → t.Atomic) ↔
      Run (State.step numbered ⟨0, 9, 0⟩) Undisturbed (State.init numbered (some 1)) one_update
        s) := by
  have hrun : Run (State.step numbered ⟨0, 9, 0⟩) anyStep (State.init numbered (some 1))
    one_update _ := Run.of_exec rfl
  exact ⟨_, hrun, rfl, stores_are_atomic_iff _ _ _ _ _ hrun⟩

/-- The versions 3 and 2 are both validated against version 1, and version 2 is written last. -/
theorem an_older_version_is_written_last :
    ¬ ∀ (version : Nat → Option Int) (dht : elle.Version) (block : Option Nat)
      (as : List (Action Nat)) (s : State Nat),
      Run (State.step version dht) anyStep (State.init version block) as s → s.Atomic := by
  intro h
  have hrun : Run (State.step numbered ⟨0, 9, 0⟩) anyStep (State.init numbered (some 1))
    [.store 0 3 .update, .store 1 2 .update, .turn 0 .success, .turn 1 .success,
      .turn 0 .success, .turn 1 .success, .turn 0 .success, .turn 1 .success,
      .turn 0 .success, .turn 1 .success] _ := Run.of_exec rfl
  have hincreasing : List.Pairwise (· < ·) [(1 : Int), 3, 2] := (h _ _ _ _ _ hrun).increasing
  exact absurd hincreasing (by decide)

end memo.Local
