-- A directory of blocks whose process stops, also in the middle of a write, and starts again on
-- the files that it finds. It answers like a table with a bound on the bytes of its blocks.
import Memo.Mirror

open ops runs stores

namespace memo.silo

/-! ## A table with a bound -/

/-- Blocks, and how many bytes they may have. -/
structure Shelf where
  capacity : Option Int
  blocks : Table Key Buffer

namespace Shelf

def used (s : Shelf) : Int := weight List.length s.blocks

def check (s : Shelf) (delta : Int) : Except Error Unit :=
  match s.capacity with
  | some c => if c < s.used + delta then .error (.insufficient_space delta s.used c) else .ok ()
  | none => .ok ()

/-- The answer to a set. Room is looked for before the block. -/
def set (s : Shelf) (key : Key) (value : Buffer) (insert update : Bool) : Except Error Int :=
  let delta := Memory.worth (find s.blocks key) (some value)
  if insert || update then do
    s.check delta
    match set_refusal (find s.blocks) key insert update with
    | some r => .error (thrown r)
    | none => .ok delta
  else
    .error (thrown .idle)

def put (s : Shelf) (key : Key) (new : Option Buffer) : Shelf :=
  { s with blocks := stores.put key new s.blocks }

def call (s : Shelf) : Write → Except Error Int × Shelf
  | .set key value insert update =>
    (s.set key value insert update,
      if (s.set key value insert update).isOk then s.put key (some value) else s)
  | .erase key =>
    match find s.blocks key with
    | some prev => (.ok (-prev.length), s.put key none)
    | none => (.error (.missing_key key), s)

end Shelf

namespace Filesystem

/-! ## The directory -/

inductive Event where
  | get (key : Key)
  | call (w : Write)
  | stop
  /-- The process dies in `set`, when `n` bytes of the value are in the file. -/
  | torn (key : Key) (value : Buffer) (insert update : Bool) (n : Nat)

/-- What is on the disk then. The file is opened, and emptied, once all is checked. -/
def torn (fs : Filesystem) (key : Key) (value : Buffer) (insert update : Bool) (n : Nat) :
    Filesystem :=
  match fs.set key value insert update with
  | (.ok _, fs') => { fs' with files := put (_path key) (some (value.take n)) fs'.files }
  | (.error _, fs') => fs'

/-- The constructor runs on what is there. -/
def reopen (fs : Filesystem) : Option Filesystem :=
  (new fs.base.capacity fs.dirs fs.files).toOption

def go (fs : Filesystem) : Event → Option Filesystem
  | .get key => some (fs.get key).2
  | .call w => fs.step w
  | .stop => fs.reopen
  | .torn key value insert update n => (fs.torn key value insert update n).reopen

/-- What the event does to the table. -/
def shelve (s : Shelf) : Event → Shelf
  | .get _ | .stop => s
  | .call w => (s.call w).2
  | .torn key value insert update n =>
    match s.call (.set key value insert update) with
    | (.ok _, s') => s'.put key (some (value.take n))
    | (.error _, s') => s'

/-- The value has less than 2³¹ bytes. -/
def Event.Small : Event → Prop
  | .call (.set _ value _ _) | .torn _ value _ _ _ => value.length < 2 ^ 31
  | _ => True

/-- The storage and the table give the same answers. -/
structure Answers (s : Shelf) (fs : Filesystem) : Prop where
  get : ∀ key, (fs.get key).1 =
    match find s.blocks key with
    | some value => .ok value
    | none => .error (.missing_key key)
  call : ∀ w, (Event.call w).Small → (fs.call w).1 = (s.call w).1
  usage : fs.base.usage = s.used
  block_count : fs.base.block_count = s.blocks.keys.length

/-! ## One event -/

/-- What is on the disk. -/
structure Stored (s : Shelf) (fs : Filesystem) : Prop where
  named : ∀ path, (find fs.files path).isSome → ∃ key, path = _path key
  small : Small fs.files
  contents : fs.contents = find s.blocks
  weight : ∀ w, weight w fs.files = stores.weight w s.blocks
  capacity : fs.base.capacity = s.capacity
  room : ∀ c, s.capacity = some c → s.used ≤ c

structure Kept (s : Shelf) (fs : Filesystem) : Prop extends Stored s fs where
  right : fs.Right

variable {s : Shelf} {fs fs' : Filesystem} {key : Key} {value : Buffer} {insert update : Bool}

theorem Stored.weight_put (h : Stored s fs) (w : Buffer → Nat) (key : Key) (new : Option Buffer) :
    stores.weight w (put (_path key) new fs.files) = stores.weight w (s.put key new).blocks := by
  have hfile := stores.weight_put w (_path key) new fs.files
  have hblock := stores.weight_put w key new s.blocks
  have hold : find fs.files (_path key) = find s.blocks key := congrFun h.contents key
  rw [hold, h.weight] at hfile
  change _ = stores.weight w (stores.put key new s.blocks)
  omega

theorem Stored.put (h : Stored s fs) {new : Option Buffer}
    (hnew : ∀ block, new = some block → block.length < 2 ^ 31)
    (hfiles : fs'.files = put (_path key) new fs.files)
    (hcapacity : fs'.base.capacity = fs.base.capacity)
    (hroom : ∀ c, s.capacity = some c → (s.put key new).used ≤ c) : Stored (s.put key new) fs' := by
  have hcontents : fs'.contents = Function.update fs.contents key new := by
    rw [← contents_changed]
    unfold Filesystem.contents
    rw [hfiles]
    rfl
  refine ⟨fun path hpath => ?_, hfiles ▸ small_put h.small hnew,
    ?_, fun w => hfiles ▸ h.weight_put w key new, hcapacity.trans h.capacity, hroom⟩
  · by_cases heq : path = _path key
    · exact ⟨key, heq⟩
    · rw [hfiles, find_put, Function.update_of_ne heq] at hpath
      exact h.named path hpath
  · rw [hcontents, h.contents]
    exact (find_put key new s.blocks).symm

theorem Kept.put (h : Kept s fs) {new : Option Buffer}
    (hnew : ∀ block, new = some block → block.length < 2 ^ 31) (hright : fs'.Right)
    (hfiles : fs'.files = put (_path key) new fs.files)
    (hcapacity : fs'.base.capacity = fs.base.capacity) : Kept (s.put key new) fs' := by
  refine ⟨h.toStored.put hnew hfiles hcapacity fun c hc => ?_, hright⟩
  have husage := hright.capacity c (hcapacity.trans (h.capacity.trans hc))
  rw [hright.usage, hfiles, h.weight_put] at husage
  exact husage

theorem Kept.used (h : Kept s fs) : fs.base.usage = s.used := by
  unfold Shelf.used
  rw [← h.weight]
  exact h.right.usage

theorem Kept.create_directory (h : Kept s fs) (key : Key) : Kept s (fs.create_directory key) :=
  ⟨{ h with }, h.right.create_directory key⟩

theorem Kept.check (h : Kept s fs) (d : Int) : check_capacity d fs.base = s.check d := by
  cases hs : s.capacity <;> simp [check_capacity, Shelf.check, h.capacity, h.used, hs]

theorem Kept.set_answer (h : Kept s fs) (hvalue : value.length < 2 ^ 31) :
    (fs.set key value insert update).1 = s.set key value insert update := by
  unfold Filesystem.set Shelf.set
  by_cases hflags : (insert || update) = true
  · have hold : find fs.files (_path key) = find s.blocks key := congrFun h.contents key
    have hset : fs._set key value insert update = _ := _set_eq hflags
    rw [delta_eq (h.small (_path key)) hvalue, hold, h.contents, h.check] at hset
    rw [if_pos hflags]
    cases hcheck : s.check (Memory.worth (find s.blocks key) (some value)) with
    | error e =>
      rw [hcheck] at hset
      rw [Silo.set_of_error hflags hset]
      rfl
    | ok u =>
      cases hr : set_refusal (find s.blocks) key insert update with
      | some r =>
        rw [hcheck, hr] at hset
        rw [Silo.set_of_error hflags hset]
        rfl
      | none =>
        rw [hcheck, hr] at hset
        rw [Silo.set_of_ok hflags hset]
        rfl
  · rw [if_neg hflags, Silo.set_idle _ fs hflags]

theorem small_some (h : value.length < 2 ^ 31) :
    ∀ block, some value = some block → block.length < 2 ^ 31 := by
  intro block hblock
  rw [← Option.some.inj hblock]
  exact h

theorem Kept.call (h : Kept s fs) {w : Write} (hw : (Event.call w).Small) :
    (fs.call w).1 = (s.call w).1 ∧ Kept (s.call w).2 (fs.call w).2 := by
  unfold Shelf.call Filesystem.call
  cases w with
  | set key value insert update =>
    have hright : (fs.set key value insert update).2.Right := (h.right.set h.small hw).1
    refine ⟨h.set_answer hw, ?_⟩
    simp only [← h.set_answer hw]
    rcases set_cases fs key value insert update with ⟨-, he⟩ | ⟨-, ⟨e, he⟩ | ⟨-, hok⟩⟩
    · rw [he]
      exact h
    · rw [he]
      exact h.create_directory key
    · rw [hok] at hright ⊢
      exact h.put (small_some hw) hright rfl (Silo.written_capacity _ _)
  | erase key =>
    have hright : (fs.erase key).2.Right := (h.right.erase h.small).1
    have hold : find fs.files (_path key) = find s.blocks key := congrFun h.contents key
    dsimp only
    rcases erase_cases fs key with ⟨hnone, he⟩ | ⟨prev, hprev, hok⟩
    · rw [he, ← hold, hnone]
      exact ⟨rfl, h.create_directory key⟩
    · have hsize := h.small (_path key) prev hprev
      have hreturn : to_int (-(find fs.base.size_cache key).getD 0) = -prev.length := by
        rw [h.right.size_cache, hprev, Option.map_some, Option.getD_some]
        exact to_int_eq.mpr ⟨by omega, by omega⟩
      rw [hok, hreturn] at hright ⊢
      rw [← hold, hprev]
      exact ⟨rfl, h.put (by simp) hright rfl rfl⟩

theorem Stored.reopen (h : Stored s fs) : ∃ fs', fs.reopen = some fs' ∧ Kept s fs' := by
  obtain ⟨fs', hnew, hfiles, hcapacity, husage, hcount, hcache⟩ :=
    @new_spec fs.base.capacity _ h.named fs.dirs
  refine ⟨fs', ?_, ⟨hfiles ▸ h.named, hfiles ▸ h.small, ?_, hfiles ▸ h.weight,
    hcapacity.trans h.capacity, h.room⟩, hfiles ▸ h.named, hfiles ▸ husage, hfiles ▸ hcount, ?_, ?_⟩
  · unfold Filesystem.reopen
    rw [hnew]
    rfl
  · rw [← h.contents]
    unfold Filesystem.contents
    rw [hfiles]
  · intro key
    rw [hcache, hfiles]
    cases hblock : find fs.files (_path key) with
    | none => rw [Option.map_none, Option.map_none]
    | some block =>
      rw [Option.map_some, Option.map_some, to_int_length (h.small _ block hblock)]
  · intro c hc
    rw [husage, h.weight]
    exact h.room c (h.capacity.symm.trans (hcapacity.symm.trans hc))

theorem Kept.torn (h : Kept s fs) {n : Nat} (hvalue : value.length < 2 ^ 31) :
    Stored (shelve s (.torn key value insert update n)) (fs.torn key value insert update n) := by
  obtain ⟨hanswer, hkept⟩ := h.call (w := .set key value insert update) hvalue
  simp only [shelve, Filesystem.torn, Shelf.call, Filesystem.call] at hanswer hkept ⊢
  rw [← hanswer] at hkept ⊢
  generalize fs.set key value insert update = result at hkept ⊢
  obtain ⟨e | d, fs'⟩ := result
  · exact hkept.toStored
  · simp only [Except.isOk, Except.toBool, ↓reduceIte] at hkept ⊢
    have hlength := List.length_take_le' n value
    refine hkept.toStored.put (small_some (hlength.trans_lt hvalue)) rfl rfl fun c hc => ?_
    have hwhole := hkept.room c hc
    have hstart := weight_put List.length key (some (value.take n))
      (stores.put key (some value) s.blocks)
    rw [find_put, Function.update_self] at hstart
    simp only [Shelf.used, Shelf.put, part, Option.elim_some] at hwhole hstart ⊢
    omega

theorem Kept.go (h : Kept s fs) {e : Event} (he : e.Small) :
    ∃ fs', fs.go e = some fs' ∧ Kept (shelve s e) fs' := by
  cases e with
  | get key =>
    refine ⟨_, rfl, ?_⟩
    cases hfind : fs.contents key with
    | some value =>
      rw [get_present hfind]
      exact h.create_directory key
    | none =>
      rw [get_missing hfind]
      exact h.create_directory key
  | call w => exact ⟨_, rfl, (h.call he).2⟩
  | stop => exact h.reopen
  | torn key value insert update n => exact (h.torn he).reopen

/-! ## What is answered -/

theorem Kept.answers (h : Kept s fs) : Answers s fs where
  get key := by
    rw [← h.contents]
    cases hfind : fs.contents key with
    | some value => rw [get_present hfind]
    | none => rw [get_missing hfind]
  call w hw := (h.call hw).1
  usage := h.used
  block_count := by
    rw [h.right.block_count, ← weight_one, ← weight_one, h.weight]

/-- Whatever calls, stops and writes that the death of the process cuts short: a directory that was
empty at first answers like the table with a bound, in which a write that was cut short left the
start of its value. -/
theorem a_directory_answers_like_a_bounded_table_across_restarts {capacity : Option Int}
    (hcapacity : ∀ c, capacity = some c → 0 ≤ c) {es : List Event} (hes : ∀ e ∈ es, e.Small) :
    ∃ fs₀ fs, new capacity ∅ ∅ = .ok fs₀ ∧ Run go anyStep fs₀ es fs ∧
      Answers (es.foldl shelve ⟨capacity, ∅⟩) fs := by
  -- the constructor is a stop with nothing on the disk
  have hempty : Stored ⟨capacity, ∅⟩ ⟨Silo.new capacity, ∅, ∅⟩ :=
    ⟨by simp [find], fun path block h => by simp [find] at h, rfl, fun _ => rfl, rfl, hcapacity⟩
  obtain ⟨fs₀, hnew, h₀⟩ := hempty.reopen
  refine ⟨fs₀, ?_⟩
  have hrun : ∃ fs, Run go anyStep fs₀ es fs ∧ Kept (es.foldl shelve ⟨capacity, ∅⟩) fs := by
    induction es using List.reverseRecOn with
    | nil => exact ⟨fs₀, Run.nil, h₀⟩
    | append_singleton es e ih =>
      obtain ⟨fs, hfs, hkept⟩ := ih fun e' he' => hes e' (List.mem_append_left _ he')
      obtain ⟨fs', hgo, hkept'⟩ := hkept.go (hes e (by simp))
      rw [List.foldl_append]
      exact ⟨fs', hfs.snoc trivial hgo, hkept'⟩
  obtain ⟨fs, hfs, hkept⟩ := hrun
  exact ⟨fs, congrArg Except.ok (Option.some.inj hnew), hfs, hkept.answers⟩

/-- The process dies when two of three bytes are written, and what did not fit then fits later. -/
def torn_write : List Event :=
  [.call (.set (block 1) [1, 2, 3, 4, 5, 6, 7] true false), .torn (block 2) [1, 2, 3] true false 2,
    .call (.set (block 3) [1, 2] true true), .call (.erase (block 1)), .stop,
    .call (.set (block 3) [1, 2] true true)]

theorem a_torn_write_leaves_its_start :
    ∃ fs₀ fs, new (some 10) ∅ ∅ = .ok fs₀ ∧ Run go anyStep fs₀ torn_write fs ∧
      (fs.get (block 2)).1 = .ok [1, 2] ∧ fs.base.usage = 4 := by
  have hsmall : ∀ e ∈ torn_write, e.Small := by
    unfold torn_write
    simp [Event.Small]
  obtain ⟨fs₀, fs, hnew, hfs, hanswers⟩ :=
    a_directory_answers_like_a_bounded_table_across_restarts
      (fun c hc => Option.some.inj hc ▸ (by decide : (0 : Int) ≤ 10)) hsmall
  refine ⟨fs₀, fs, hnew, hfs, ?_, ?_⟩
  · have hfind : find (torn_write.foldl shelve ⟨some 10, ∅⟩).blocks (block 2) = some [1, 2] := by
      decide +kernel
    rw [hanswers.get, hfind]
  · rw [hanswers.usage]
    decide +kernel

end Filesystem

end memo.silo
