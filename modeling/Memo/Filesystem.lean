-- The storage that keeps each block in a file: the names of the files, and what the
-- storage counts of them.
import Mathlib.Data.Finset.Insert
import Memo.Runs
import Memo.Silo

open ops runs stores

namespace memo.silo

/-! ## The names of files -/

abbrev Name : Type := List Char

/-- What `hexadecimal::encode` writes for half a byte. -/
def digit (n : UInt8) : Char := "0123456789abcdef".toList.getD n.toNat '0'

/-- `hexadecimal::encode`. -/
def encode (buffer : List UInt8) : Name :=
  buffer.flatMap fun c : UInt8 => [digit ((c >>> 4) &&& 0xf), digit (c &&& 0xf)]

/-- A buffer as `%x` prints it. -/
def sprintf_x (buffer : List UInt8) : Name := '0' :: 'x' :: encode buffer

/-- The value of a hexadecimal digit, of either case. -/
def value? (c : Char) : Option Nat :=
  if '0' ≤ c ∧ c ≤ '9' then
    some (c.toNat - 48)
  else if 'a' ≤ c ∧ c ≤ 'f' then
    some (c.toNat - 97 + 10)
  else if 'A' ≤ c ∧ c ≤ 'F' then
    some (c.toNat - 65 + 10)
  else
    none

def isspace (c : Char) : Bool := c.toNat = 32 || (9 ≤ c.toNat && c.toNat ≤ 13)

/-- The number that some text starts with. -/
def digits (n : Nat) : List Char → Nat
  | [] => n
  | c :: text =>
    match value? c with
    | some v => digits (16 * n + v) text
    | none => n

/-- `strtol`, in base 16, of two characters. -/
def strtol (c₀ c₁ : Char) : Int :=
  match [c₀, c₁].dropWhile isspace with
  | '-' :: text => -digits 0 text
  | '+' :: text => digits 0 text
  | text => digits 0 text

/-- `n` bytes of two characters each, and nothing after them. -/
def from_digits : Nat → List Char → Option (List UInt8)
  | 0, [] => some []
  | n + 1, c₀ :: c₁ :: text => (from_digits n text).map fun v => UInt8.ofInt (strtol c₀ c₁) :: v
  | _, _ => none

/-- What is thrown for a file whose name is no address. -/
structure InvalidAddress where
  repr : Name
deriving DecidableEq

/-- What follows `0x`, if the name starts so. -/
def after_0x : Name → List Char
  | '0' :: 'x' :: text => text
  | text => text

/-- `Address::from_string`. -/
def from_string (repr : Name) : Except InvalidAddress Key :=
  match from_digits 32 (after_0x repr) with
  | some v => if h : v.toArray.size = 32 then .ok ⟨v.toArray, h⟩ else .error ⟨repr⟩
  | none => .error ⟨repr⟩

theorem strtol_digits (c : UInt8) :
    UInt8.ofInt (strtol (digit ((c >>> 4) &&& 0xf)) (digit (c &&& 0xf))) = c := by
  have hall : ∀ n : Fin 256, UInt8.ofInt (strtol (digit ((UInt8.ofFin n >>> 4) &&& 0xf))
      (digit (UInt8.ofFin n &&& 0xf))) = UInt8.ofFin n := by
    decide +kernel
  exact hall c.toFin

theorem from_digits_encode (buffer : List UInt8) :
    from_digits buffer.length (encode buffer) = some buffer := by
  induction buffer with
  | nil => rfl
  | cons c buffer ih =>
    change (from_digits buffer.length (encode buffer)).map _ = _
    rw [ih, Option.map_some, strtol_digits]

theorem from_string_sprintf (key : Key) : from_string (sprintf_x key.toList) = .ok key := by
  have hdigits := from_digits_encode key.toList
  rw [Vector.length_toList] at hdigits
  have htext : after_0x (sprintf_x key.toList) = encode key.toList := rfl
  unfold from_string
  rw [htext, hdigits]
  simp only [List.size_toArray, Vector.length_toList, ↓reduceDIte]
  rfl

/-- Where a file is, under the root. -/
structure Path where
  dir : Name
  filename : Name
deriving DecidableEq

/-- `_path`: a directory named by the first byte, in which the whole address is the name. -/
def _path (key : Key) : Path where
  dir := (sprintf_x [key[0]]).drop 2
  filename := sprintf_x key.toList

theorem from_string_path (key : Key) : from_string (_path key).filename = .ok key :=
  from_string_sprintf key

theorem _path_injective {key key' : Key} (h : _path key = _path key') : key = key' := by
  have hread := from_string_path key
  rw [h, from_string_path key', Except.ok.injEq] at hread
  exact hread.symm

/-! ## A directory of blocks -/

/-- `Filesystem`: what all storages have, the directories under `_root`, and the files in these. -/
structure Filesystem where
  base : Silo
  dirs : Finset Name
  files : Table Path Buffer

namespace Filesystem

def on_silo (f : Silo → Silo) (fs : Filesystem) : Filesystem := { fs with base := f fs.base }

/-- What the constructor does with a file that it finds. -/
def recover (s : Silo) (path : Path) (size : Nat) : Except InvalidAddress Silo := do
  let addr ← from_string path.filename
  return Silo._notify_metrics
    { s with
      size_cache := put addr (some (to_int size)) s.size_cache
      usage := s.usage + size
      block_count := s.block_count + 1 }

/-- The constructor. -/
def new (capacity : Option Int) (dirs : Finset Name) (files : Table Path Buffer) :
    Except InvalidAddress Filesystem := do
  let base ← files.entries.foldlM (fun s block => recover s block.1 block.2.length)
    (Silo.new capacity)
  return { base, dirs, files }

/-- `_path` creates the directory of a block that is missing. -/
def create_directory (key : Key) (fs : Filesystem) : Filesystem :=
  { fs with dirs := insert (_path key).dir fs.dirs }

/-- Whether there is room for `delta` more bytes. -/
def check_capacity (delta : Int) (s : Silo) : Except Error Unit :=
  match s.capacity with
  | some capacity =>
    if capacity < s.usage + delta then
      .error (.insufficient_space delta s.usage capacity)
    else
      .ok ()
  | none => .ok ()

def get (key : Key) : Op Filesystem Error Buffer := do
  Op.modify (create_directory key)
  let fs ← Op.get
  match find fs.files (_path key) with
  | some block => return block
  | none => Op.throw (.missing_key key)

def _set (key : Key) (value : Buffer) (insert update : Bool) : Op Filesystem Error Int := do
  Op.modify (create_directory key)
  let fs ← Op.get
  let block := find fs.files (_path key)
  let size := to_int (part List.length block)
  let delta := to_int (value.length - size)
  Op.ofExcept (check_capacity delta fs.base)
  if block.isNone && !insert then
    Op.throw (.missing_key key)
  else if block.isSome && !update then
    Op.throw (.collision key)
  else
    Op.modify fun fs =>
      { fs with
        files := put (_path key) (some value) fs.files
        base := { fs.base with
          size_cache := put key (some (to_int value.length)) fs.base.size_cache
          block_count := fs.base.block_count + (if block.isSome then 0 else 1) } }
    return if update then to_int (value.length - size) else to_int value.length

def _erase (key : Key) : Op Filesystem Error Int := do
  Op.modify (create_directory key)
  let fs ← Op.get
  if (find fs.files (_path key)).isNone then
    Op.throw (.missing_key key)
  else
    let delta := (find fs.base.size_cache key).getD 0
    Op.modify fun fs =>
      { fs with
        files := put (_path key) none fs.files
        base := { fs.base with
          size_cache := put key none fs.base.size_cache
          block_count := fs.base.block_count - 1 } }
    return to_int (-delta)

def set (key : Key) (value : Buffer) (insert update : Bool) : Op Filesystem Error Int :=
  Silo.set on_silo (_set key value insert update) insert update

def erase (key : Key) : Op Filesystem Error Int := Silo.erase on_silo key (_erase key)

/-! ## What the calls do -/

/-- The value of each block. -/
def contents (fs : Filesystem) : Map Key Buffer := fun key => find fs.files (_path key)

/-- What a call returns for a value in place of an old one. -/
def delta (old : Option Buffer) (value : Buffer) : Int :=
  to_int (value.length - to_int (part List.length old))

/-- The directory with another value for a block, or none, and what is counted of it. -/
def changed (key : Key) (new : Option Buffer) (fs : Filesystem) : Filesystem where
  base := { fs.base with
    size_cache := put key (new.map fun value => to_int value.length) fs.base.size_cache
    block_count := fs.base.block_count + Memory.added (find fs.files (_path key)) new }
  dirs := insert (_path key).dir fs.dirs
  files := put (_path key) new fs.files

variable {fs : Filesystem} {key : Key} {value : Buffer}

theorem check_capacity_ok {d : Int} {s : Silo} (h : check_capacity d s = .ok ()) :
    ∀ c, s.capacity = some c → s.usage + d ≤ c := by
  intro c hc
  unfold check_capacity at h
  rw [hc] at h
  dsimp only at h
  split at h
  · cases h
  · omega

theorem delta_none : delta none value = to_int value.length := by
  unfold delta
  have hzero : to_int (part List.length (none : Option Buffer)) = 0 := by decide
  rw [hzero, sub_zero]

theorem changed_new (h : find fs.files (_path key) = none) :
    fs.changed key (some value) =
      { base := { fs.base with
          size_cache := put key (some (to_int value.length)) fs.base.size_cache
          block_count := fs.base.block_count + 1 }
        dirs := insert (_path key).dir fs.dirs
        files := put (_path key) (some value) fs.files } := by
  unfold changed Memory.added
  rw [h]
  rfl

theorem changed_value {prev : Buffer} (h : find fs.files (_path key) = some prev) :
    fs.changed key (some value) =
      { base := { fs.base with
          size_cache := put key (some (to_int value.length)) fs.base.size_cache
          block_count := fs.base.block_count + 0 }
        dirs := insert (_path key).dir fs.dirs
        files := put (_path key) (some value) fs.files } := by
  unfold changed Memory.added
  rw [h]
  rfl

theorem get_present (h : fs.contents key = some value) :
    fs.get key = (.ok value, fs.create_directory key) := by
  have hblock : find (fs.create_directory key).files (_path key) = some value := h
  unfold get
  rw [Op.bind_of_ok (Op.modify_apply _ fs), Op.bind_of_ok (Op.get_apply _), hblock]
  rfl

theorem get_missing (h : fs.contents key = none) :
    fs.get key = (.error (.missing_key key), fs.create_directory key) := by
  have hblock : find (fs.create_directory key).files (_path key) = none := h
  unfold get
  rw [Op.bind_of_ok (Op.modify_apply _ fs), Op.bind_of_ok (Op.get_apply _), hblock]
  rfl

theorem _set_eq {insert update : Bool} (hflags : (insert || update) = true) :
    fs._set key value insert update =
      match check_capacity (delta (find fs.files (_path key)) value) fs.base with
      | .error e => (.error e, fs.create_directory key)
      | .ok _ =>
        match set_refusal fs.contents key insert update with
        | some r => (.error (thrown r), fs.create_directory key)
        | none => (.ok (delta (find fs.files (_path key)) value), fs.changed key (some value)) := by
  unfold _set
  rw [Op.bind_of_ok (Op.modify_apply _ fs), Op.bind_of_ok (Op.get_apply _)]
  change (Op.ofExcept (check_capacity (delta (find fs.files (_path key)) value) fs.base) >>= _)
    (fs.create_directory key) = _
  cases hcheck : check_capacity (delta (find fs.files (_path key)) value) fs.base with
  | error e => rfl
  | ok u =>
    have hpass : (Op.ofExcept (.ok u) : Op Filesystem Error Unit) (fs.create_directory key) =
        (.ok u, fs.create_directory key) := rfl
    have hblock : find (fs.create_directory key).files (_path key) =
        find fs.files (_path key) := rfl
    have hreturn : ∀ old, (update = false → old = none) → (if update then to_int (value.length -
        to_int (part List.length old)) else to_int value.length) = delta old value := by
      intro old hold
      split
      · rfl
      · rename_i hupdate
        rw [hold (Bool.eq_false_iff.mpr hupdate), delta_none]
    rw [Op.bind_of_ok hpass, hblock]
    unfold set_refusal contents
    rw [if_pos hflags]
    cases hfind : find fs.files (_path key) with
    | none =>
      cases insert with
      | false => rfl
      | true =>
        rw [changed_new hfind, if_neg (by decide), if_neg (by simp), hreturn none fun _ => rfl]
        rfl
    | some prev =>
      cases update with
      | false => cases insert <;> rfl
      | true =>
        rw [changed_value hfind, if_neg (by simp), if_neg (by simp), hreturn _ (by simp)]
        rfl

theorem changed_gone {prev : Buffer} (h : find fs.files (_path key) = some prev) :
    fs.changed key none =
      { base := { fs.base with
          size_cache := put key none fs.base.size_cache
          block_count := fs.base.block_count - 1 }
        dirs := insert (_path key).dir fs.dirs
        files := put (_path key) none fs.files } := by
  unfold changed Memory.added
  rw [h]
  rfl

theorem _erase_cases (fs : Filesystem) (key : Key) :
    find fs.files (_path key) = none ∧
        fs._erase key = (.error (.missing_key key), fs.create_directory key) ∨
      ∃ prev, find fs.files (_path key) = some prev ∧
        fs._erase key =
          (.ok (to_int (-(find fs.base.size_cache key).getD 0)), fs.changed key none) := by
  have hblock : find (fs.create_directory key).files (_path key) = find fs.files (_path key) := rfl
  unfold _erase
  rw [Op.bind_of_ok (Op.modify_apply _ fs), Op.bind_of_ok (Op.get_apply _), hblock]
  cases hfind : find fs.files (_path key) with
  | none => exact Or.inl ⟨rfl, rfl⟩
  | some prev =>
    rw [changed_gone hfind]
    exact Or.inr ⟨prev, rfl, rfl⟩

theorem set_accepted {insert update : Bool}
    (hroom : check_capacity (delta (find fs.files (_path key)) value) fs.base = .ok ())
    (h : set_refusal fs.contents key insert update = none) :
    fs.set key value insert update =
      (.ok (delta (find fs.files (_path key)) value),
        (fs.changed key (some value)).on_silo
          (Silo.written (delta (find fs.files (_path key)) value))) := by
  have hset : fs._set key value insert update = _ := _set_eq (flags_of_accepted h)
  rw [hroom, h] at hset
  unfold set
  rw [Silo.set_of_ok (flags_of_accepted h) hset]

theorem set_refused {insert update : Bool} (hflags : (insert || update) = true)
    (h : ¬(check_capacity (delta (find fs.files (_path key)) value) fs.base = .ok () ∧
      set_refusal fs.contents key insert update = none)) :
    ∃ e, fs.set key value insert update = (.error e, fs.create_directory key) := by
  have hset : fs._set key value insert update = _ := _set_eq hflags
  unfold set
  cases hcheck : check_capacity (delta (find fs.files (_path key)) value) fs.base with
  | error e =>
    rw [hcheck] at hset
    exact ⟨e, Silo.set_of_error hflags hset⟩
  | ok u =>
    cases hr : set_refusal fs.contents key insert update with
    | some r =>
      rw [hcheck, hr] at hset
      exact ⟨thrown r, Silo.set_of_error hflags hset⟩
    | none => exact absurd ⟨hcheck, hr⟩ h

theorem set_cases (fs : Filesystem) (key : Key) (value : Buffer) (insert update : Bool) :
    (insert || update) = false ∧
        fs.set key value insert update = (.error (thrown .idle), fs) ∨
      (insert || update) = true ∧
        ((∃ e, fs.set key value insert update = (.error e, fs.create_directory key)) ∨
          check_capacity (delta (find fs.files (_path key)) value) fs.base = .ok () ∧
            fs.set key value insert update =
              (.ok (delta (find fs.files (_path key)) value),
                (fs.changed key (some value)).on_silo
                  (Silo.written (delta (find fs.files (_path key)) value)))) := by
  by_cases hflags : (insert || update) = true
  · refine Or.inr ⟨hflags, ?_⟩
    by_cases hroom : check_capacity (delta (find fs.files (_path key)) value) fs.base = .ok () ∧
        set_refusal fs.contents key insert update = none
    · exact Or.inr ⟨hroom.1, set_accepted hroom.1 hroom.2⟩
    · exact Or.inl (set_refused hflags hroom)
  · exact Or.inl ⟨Bool.eq_false_iff.mpr hflags, Silo.set_idle _ fs hflags⟩

theorem erase_cases (fs : Filesystem) (key : Key) :
    find fs.files (_path key) = none ∧
        fs.erase key = (.error (.missing_key key), fs.create_directory key) ∨
      ∃ prev, find fs.files (_path key) = some prev ∧
        fs.erase key =
          (.ok (to_int (-(find fs.base.size_cache key).getD 0)),
            (fs.changed key none).on_silo
              (Silo.erased key (to_int (-(find fs.base.size_cache key).getD 0)))) := by
  unfold erase
  rcases _erase_cases fs key with ⟨hnone, he⟩ | ⟨prev, hprev, hok⟩
  · exact Or.inl ⟨hnone, Silo.erase_of_error he⟩
  · refine Or.inr ⟨prev, hprev, ?_⟩
    rw [Silo.erase_of_ok hok]

/-! ## What is counted -/

/-- What the storage counts of its files is right. -/
structure Right (fs : Filesystem) : Prop where
  named : ∀ path, (find fs.files path).isSome → ∃ key, path = _path key
  usage : fs.base.usage = weight List.length fs.files
  block_count : fs.base.block_count = fs.files.keys.length
  size_cache : ∀ key, find fs.base.size_cache key =
    (find fs.files (_path key)).map fun block => (block.length : Int)
  capacity : ∀ c, fs.base.capacity = some c → fs.base.usage ≤ c

/-- An int measures each file. -/
def Small (files : Table Path Buffer) : Prop :=
  ∀ path block, find files path = some block → block.length < 2 ^ 31

theorem to_int_length {value : Buffer} (h : value.length < 2 ^ 31) :
    to_int value.length = value.length :=
  to_int_eq.mpr ⟨by omega, by omega⟩

theorem part_lt {old : Option Buffer} (h : ∀ block, old = some block → block.length < 2 ^ 31) :
    part List.length old < 2 ^ 31 := by
  cases old with
  | none => decide
  | some block => exact h block rfl

theorem delta_eq {old : Option Buffer} (hold : ∀ block, old = some block → block.length < 2 ^ 31)
    (hvalue : value.length < 2 ^ 31) : delta old value = Memory.worth old (some value) := by
  have hpart := part_lt hold
  have hsize : to_int (part List.length old) = part List.length old :=
    to_int_eq.mpr ⟨by omega, by omega⟩
  unfold delta
  rw [hsize]
  exact to_int_eq.mpr ⟨by omega, by omega⟩

theorem Right.changed (h : fs.Right) {new : Option Buffer} {fs' : Filesystem}
    (hfiles : fs'.files = put (_path key) new fs.files)
    (husage : fs'.base.usage = fs.base.usage + Memory.worth (find fs.files (_path key)) new)
    (hcount : fs'.base.block_count =
      fs.base.block_count + Memory.added (find fs.files (_path key)) new)
    (hcache : find fs'.base.size_cache = Function.update (find fs.base.size_cache) key
      (new.map fun block => (block.length : Int)))
    (hcapacity : ∀ c, fs'.base.capacity = some c → fs'.base.usage ≤ c) : fs'.Right := by
  have hfind : find fs'.files = Function.update (find fs.files) (_path key) new := by
    rw [hfiles, find_put]
  refine ⟨?_, ?_, ?_, ?_, hcapacity⟩
  · intro path hpath
    by_cases heq : path = _path key
    · exact ⟨key, heq⟩
    · rw [hfind, Function.update_of_ne heq] at hpath
      exact h.named path hpath
  · have hweight := weight_put List.length (_path key) new fs.files
    rw [husage, hfiles, h.usage]
    unfold Memory.worth
    omega
  · have hweight := weight_put (fun _ => 1) (_path key) new fs.files
    rw [weight_one, weight_one] at hweight
    rw [hcount, hfiles, h.block_count]
    unfold Memory.added
    omega
  · intro key'
    rw [hcache, hfind]
    by_cases hkey : key' = key
    · rw [hkey, Function.update_self, Function.update_self]
    · have hpath : _path key' ≠ _path key := fun heq => hkey (_path_injective heq)
      rw [Function.update_of_ne hkey, Function.update_of_ne hpath]
      exact h.size_cache key'

theorem small_put {files : Table Path Buffer} {path : Path} {new : Option Buffer}
    (h : Small files) (hnew : ∀ block, new = some block → block.length < 2 ^ 31) :
    Small (put path new files) := by
  intro path' block hblock
  rw [find_put] at hblock
  by_cases heq : path' = path
  · rw [heq, Function.update_self] at hblock
    exact hnew block hblock
  · rw [Function.update_of_ne heq] at hblock
    exact h path' block hblock

/-! ## Calls one after another -/

def call (fs : Filesystem) : Write → Except Error Int × Filesystem
  | .set key value insert update => fs.set key value insert update
  | .erase key => fs.erase key

def step (fs : Filesystem) (w : Write) : Option Filesystem := some (fs.call w).2

/-- The block of a call is smaller than 2³¹ bytes. -/
def SmallBlock (_ : Filesystem) : Write → Prop
  | .set _ value _ _ => value.length < 2 ^ 31
  | .erase _ => True

/-- A call that may neither insert nor update. -/
def Idle : Write → Prop
  | .set _ _ insert update => (insert || update) = false
  | .erase _ => False

/-- A call that throws writes no block and counts nothing. It changes nothing at all when and only
when the directory of the block is there, or it did not look for it. -/
def Harmless (fs : Filesystem) (w : Write) : Prop :=
  ∀ e, (fs.call w).1 = .error e →
    (fs.call w).2.base = fs.base ∧ (fs.call w).2.files = fs.files ∧
      ((fs.call w).2 = fs ↔ Idle w ∨ (_path w.key).dir ∈ fs.dirs)

theorem create_directory_eq : fs.create_directory key = fs ↔ (_path key).dir ∈ fs.dirs := by
  rw [← Finset.insert_eq_self]
  exact ⟨fun h => congrArg dirs h, fun h => congrArg (fun d => { fs with dirs := d }) h⟩

theorem Right.create_directory (h : fs.Right) (key : Key) : (fs.create_directory key).Right :=
  { h with }

theorem Right.set (h : fs.Right) (hfiles : Small fs.files) {insert update : Bool}
    (hvalue : value.length < 2 ^ 31) :
    (fs.set key value insert update).2.Right ∧ Small (fs.set key value insert update).2.files := by
  rcases set_cases fs key value insert update with ⟨-, he⟩ | ⟨-, ⟨e, he⟩ | ⟨hcheck, hok⟩⟩
  · rw [he]
    exact ⟨h, hfiles⟩
  · rw [he]
    exact ⟨h.create_directory key, hfiles⟩
  · rw [delta_eq (hfiles (_path key)) hvalue] at hcheck hok
    have hnew : ∀ block, some value = some block → block.length < 2 ^ 31 := by
      intro block hblock
      rw [← Option.some.inj hblock]
      exact hvalue
    rw [hok]
    refine ⟨h.changed rfl (Silo.written_usage _ _) (Silo.written_block_count _ _) ?_ ?_,
      small_put hfiles hnew⟩
    · change find (Silo.written _ _).size_cache = _
      rw [Silo.written_size_cache, Option.map_some, ← to_int_length hvalue]
      exact find_put key _ fs.base.size_cache
    · intro c hc
      change (Silo.written _ _).capacity = some c at hc
      rw [Silo.written_capacity] at hc
      change (Silo.written _ _).usage ≤ c
      rw [Silo.written_usage]
      exact check_capacity_ok hcheck c hc

theorem Right.erase (h : fs.Right) (hfiles : Small fs.files) :
    (fs.erase key).2.Right ∧ Small (fs.erase key).2.files := by
  rcases erase_cases fs key with ⟨-, he⟩ | ⟨prev, hprev, hok⟩
  · rw [he]
    exact ⟨h.create_directory key, hfiles⟩
  · have hcache : find fs.base.size_cache key = some (prev.length : Int) := by
      rw [h.size_cache, hprev, Option.map_some]
    have hsize := hfiles (_path key) prev hprev
    have hreturn : to_int (-(find fs.base.size_cache key).getD 0) = -prev.length := by
      rw [hcache, Option.getD_some]
      exact to_int_eq.mpr ⟨by omega, by omega⟩
    have hworth : Memory.worth (find fs.files (_path key)) none = -prev.length := by
      rw [hprev]
      simp [Memory.worth, part]
    rw [hreturn] at hok
    rw [hok]
    refine ⟨h.changed rfl ?_ rfl ?_ ?_, small_put hfiles (by simp)⟩
    · rw [hworth]
      rfl
    · -- the block leaves the cache twice
      change find (put key none (put key none fs.base.size_cache)) = _
      rw [find_put, find_put, Function.update_idem, Option.map_none]
    · intro c hc
      have husage := h.capacity c hc
      change fs.base.usage + -(prev.length : Int) ≤ c
      omega

theorem Right.call (h : fs.Right) (hfiles : Small fs.files) {w : Write}
    (hw : SmallBlock fs w) : (fs.call w).2.Right ∧ Small (fs.call w).2.files := by
  cases w with
  | set key value insert update => exact h.set hfiles hw
  | erase key => exact h.erase hfiles

theorem harmless (fs : Filesystem) (w : Write) : Harmless fs w := by
  unfold Harmless
  intro e he
  cases w with
  | set key value insert update =>
    have hcall : fs.call (.set key value insert update) = fs.set key value insert update := rfl
    rw [hcall] at he ⊢
    rcases set_cases fs key value insert update with ⟨hidle, h⟩ | ⟨hflags, ⟨e', h⟩ | ⟨-, h⟩⟩
    · rw [h]
      exact ⟨rfl, rfl, fun _ => Or.inl hidle, fun _ => rfl⟩
    · have hidle : ¬Idle (.set key value insert update) :=
        fun hidle => Bool.noConfusion (hflags.symm.trans hidle)
      rw [h, create_directory_eq, or_iff_right hidle]
      exact ⟨rfl, rfl, Iff.rfl⟩
    · rw [h] at he
      cases he
  | erase key =>
    have hcall : fs.call (.erase key) = fs.erase key := rfl
    rw [hcall] at he ⊢
    rcases erase_cases fs key with ⟨-, h⟩ | ⟨prev, -, h⟩
    · rw [h, create_directory_eq]
      exact ⟨rfl, rfl, (or_iff_right id).symm⟩
    · rw [h] at he
      cases he

/-! ## The files that are there at the start -/

theorem recover_all {entries : List (Sigma fun _ : Path => Buffer)} (hnodup : entries.NodupKeys)
    (hnamed : ∀ block ∈ entries, ∃ key, block.1 = _path key) (s : Silo) :
    ∃ s', entries.foldlM (fun s block => recover s block.1 block.2.length) s = .ok s' ∧
      s'.usage = s.usage + (entries.map fun block => block.2.length).sum ∧
      s'.block_count = s.block_count + entries.length ∧ s'.capacity = s.capacity ∧
      ∀ key, find s'.size_cache key =
        ((entries.dlookup (_path key)).map fun block => to_int block.length).or
          (find s.size_cache key) := by
  induction entries generalizing s with
  | nil => exact ⟨s, rfl, (add_zero _).symm, (add_zero _).symm, rfl, fun _ => rfl⟩
  | cons block entries ih =>
    obtain ⟨key₀, hkey₀⟩ := hnamed block List.mem_cons_self
    rw [List.nodupKeys_cons] at hnodup
    have hrecover : recover s block.1 block.2.length =
        .ok (Silo._notify_metrics { s with
          size_cache := put key₀ (some (to_int block.2.length)) s.size_cache
          usage := s.usage + block.2.length
          block_count := s.block_count + 1 }) := by
      unfold recover
      rw [hkey₀, from_string_path]
      rfl
    obtain ⟨s', hs', husage, hcount, hcapacity, hcache⟩ := ih hnodup.2
      (fun b hb => hnamed b (List.mem_cons_of_mem block hb)) (Silo._notify_metrics { s with
        size_cache := put key₀ (some (to_int block.2.length)) s.size_cache
        usage := s.usage + block.2.length
        block_count := s.block_count + 1 })
    refine ⟨s', ?_, ?_, ?_, hcapacity, ?_⟩
    · rw [List.foldlM_cons, hrecover]
      exact hs'
    · rw [husage, List.map_cons, List.sum_cons]
      change s.usage + _ + _ = _
      push_cast
      ring
    · rw [hcount, List.length_cons]
      change s.block_count + 1 + _ = _
      push_cast
      ring
    · intro key
      rw [hcache key]
      change Option.or _ (find (put key₀ _ s.size_cache) key) = _
      rw [find_put]
      by_cases hkey : key = key₀
      · -- no other file is at this path
        have htail : entries.dlookup (_path key) = none := by
          rw [List.dlookup_eq_none, hkey, ← hkey₀]
          exact hnodup.1
        rw [htail, hkey, Function.update_self, ← hkey₀, List.dlookup_cons_eq]
        rfl
      · have hpath : _path key ≠ block.1 := fun heq => hkey (_path_injective (heq.trans hkey₀))
        rw [Function.update_of_ne hkey, List.dlookup_cons_ne _ _ hpath]

theorem new_spec {capacity : Option Int} {files : Table Path Buffer}
    (hnamed : ∀ path, (find files path).isSome → ∃ key, path = _path key) (dirs : Finset Name) :
    ∃ fs, new capacity dirs files = .ok fs ∧ fs.files = files ∧ fs.base.capacity = capacity ∧
      fs.base.usage = weight List.length files ∧ fs.base.block_count = files.keys.length ∧
      ∀ key, find fs.base.size_cache key =
        (find files (_path key)).map fun block => to_int block.length := by
  have hentries : ∀ block ∈ files.entries, ∃ key, block.1 = _path key := by
    intro block hblock
    apply hnamed
    unfold find AList.lookup
    rw [List.dlookup_isSome]
    exact List.mem_keys_of_mem hblock
  obtain ⟨base, hbase, husage, hcount, hcapacity, hcache⟩ :=
    recover_all files.nodupKeys hentries (Silo.new capacity)
  refine ⟨⟨base, dirs, files⟩, ?_, rfl, hcapacity, ?_, ?_, ?_⟩
  · unfold new
    rw [hbase]
    rfl
  · exact husage.trans (zero_add _)
  · rw [hcount]
    change 0 + (files.entries.length : Int) = ((files.entries.map Sigma.fst).length : Int)
    rw [List.length_map, zero_add]
  · intro key
    rw [hcache key]
    exact Option.or_none

/-- From files that are where their blocks go and within the capacity, a storage counts right in
each state, and a call that throws does no harm, when and only when an int measures each of
these files. -/
theorem a_filesystem_counts_right_when_an_int_measures_its_files {capacity : Option Int}
    {dirs : Finset Name} {files : Table Path Buffer}
    (hnamed : ∀ path, (find files path).isSome → ∃ key, path = _path key)
    (hcapacity : ∀ c, capacity = some c → (weight List.length files : Int) ≤ c) :
    ∃ fs₀, new capacity dirs files = .ok fs₀ ∧
      ((∀ calls fs, Run step SmallBlock fs₀ calls fs → fs.Right ∧ ∀ w, Harmless fs w) ↔
        Small files) := by
  obtain ⟨fs₀, hnew, hfiles, hcap, husage, hcount, hcache⟩ := new_spec hnamed dirs
  refine ⟨fs₀, hnew, ?_, ?_⟩
  · intro hall path block hblock
    obtain ⟨key, hkey⟩ := hnamed path (Option.isSome_of_eq_some hblock)
    have hright := (hall [] fs₀ Run.nil).1.size_cache key
    rw [hcache, hfiles, ← hkey, hblock, Option.map_some, Option.map_some,
      Option.some.injEq] at hright
    have hlt : (block.length : Int) < 2 ^ 31 := (to_int_eq.mp hright).2
    omega
  · intro hsmall calls fs h
    refine ⟨?_, harmless fs⟩
    have h₀ : fs₀.Right := by
      refine ⟨hfiles.symm ▸ hnamed, hfiles.symm ▸ husage, hfiles.symm ▸ hcount, ?_, ?_⟩
      · intro key
        rw [hcache, hfiles]
        cases hblock : find files (_path key) with
        | none => rw [Option.map_none, Option.map_none]
        | some block =>
          rw [Option.map_some, Option.map_some, to_int_length (hsmall _ block hblock)]
      · intro c hc
        rw [husage]
        exact hcapacity c (hcap.symm.trans hc)
    have hboth : fs.Right ∧ Small fs.files := by
      apply h.invariant ⟨h₀, hfiles.symm ▸ hsmall⟩
      intro fs w fs' hfs hw hs
      rw [← Option.some.inj hs]
      exact hfs.1.call hfs.2 hw
    exact hboth.1

instance (fs : Filesystem) : (w : Write) → Decidable (SmallBlock fs w)
  | .set _ value _ _ => inferInstanceAs (Decidable (value.length < 2 ^ 31))
  | .erase _ => inferInstanceAs (Decidable True)

/-- The address whose bytes are all `b`. -/
def block (b : UInt8) : Key := Vector.replicate 32 b

/-- A directory with one file. -/
def one_file (value : Buffer) : Table Path Buffer := put (_path (block 1)) (some value) ∅

theorem find_one_file {value : Buffer} {path : Path} (h : (find (one_file value) path).isSome) :
    path = _path (block 1) := by
  unfold one_file at h
  rw [find_put] at h
  by_contra hne
  rw [Function.update_of_ne hne] at h
  cases h

theorem weight_one_file (value : Buffer) : weight List.length (one_file value) = value.length := by
  have hweight := weight_put List.length (_path (block 1)) (some value) ∅
  exact hweight.trans (Nat.zero_add _)

/-- With room for 10 bytes, 7 are written beside the 3 that are there, and then 6 in their place,
when 8 do not fit and another byte does not. -/
theorem a_small_directory_counts_right :
    ∃ fs, fs.base.usage = 9 ∧ fs.Right ∧ ∀ w, Harmless fs w := by
  have hnamed : ∀ path, (find (one_file [1, 2, 3]) path).isSome → ∃ key, path = _path key :=
    fun path h => ⟨block 1, find_one_file h⟩
  have hcapacity : ∀ c, some 10 = some c → (weight List.length (one_file [1, 2, 3]) : Int) ≤ c := by
    intro c hc
    rw [weight_one_file, ← Option.some.inj hc]
    decide
  obtain ⟨fs₀, hnew, hiff⟩ :=
    @a_filesystem_counts_right_when_an_int_measures_its_files (some 10) ∅ _ hnamed hcapacity
  have hsmall : Small (one_file [1, 2, 3]) := by
    apply small_put
    · intro path value hvalue
      cases hvalue
    · intro value hvalue
      rw [← Option.some.inj hvalue]
      decide
  have hrun : (match new (some 10) ∅ (one_file [1, 2, 3]) with
      | .ok fs₀ => (exec step SmallBlock fs₀ [.set (block 2) [1, 2, 3, 4, 5, 6, 7, 8] true false,
          .set (block 2) [1, 2, 3, 4, 5, 6, 7] true false, .set (block 3) [1] true false,
          .erase (block 3), .set (block 2) [1, 2, 3, 4, 5, 6] false true]).map
            fun fs => fs.base.usage
      | .error _ => none) = some 9 := by
    decide +kernel
  rw [hnew] at hrun
  obtain ⟨fs, hfs, husage⟩ := Run.of_exec_map hrun
  exact ⟨fs, husage, hiff.mpr hsmall _ fs hfs⟩

/-- A file of 2³¹ bytes is there, and its size is noted as -2³¹. -/
theorem an_int_does_not_measure_a_large_file :
    ¬∀ (capacity : Option Int) (dirs : Finset Name) (files : Table Path Buffer) (fs₀ : Filesystem),
      (∀ path, (find files path).isSome → ∃ key, path = _path key) →
      (∀ c, capacity = some c → (weight List.length files : Int) ≤ c) →
      new capacity dirs files = .ok fs₀ → ∀ calls fs, Run step SmallBlock fs₀ calls fs →
        fs.Right ∧ ∀ w, Harmless fs w := by
  intro h
  have hnamed : ∀ path, (find (one_file (List.replicate (2 ^ 31) 0)) path).isSome →
      ∃ key, path = _path key := fun path h => ⟨block 1, find_one_file h⟩
  obtain ⟨fs₀, hnew, hfiles, -, -, -, hcache⟩ := @new_spec none _ hnamed ∅
  have hright := (h none ∅ _ fs₀ hnamed (fun c hc => by cases hc) hnew [] fs₀ Run.nil).1
  have hcached := hright.size_cache (block 1)
  have hfind : find (one_file (List.replicate (2 ^ 31) 0)) (_path (block 1)) =
      some (List.replicate (2 ^ 31) 0) := by
    unfold one_file
    rw [find_put, Function.update_self]
  rw [hcache, hfiles, hfind, Option.map_some, Option.map_some, List.length_replicate,
    Option.some.injEq, to_int_eq] at hcached
  exact absurd hcached (by decide)

end Filesystem

end memo.silo
