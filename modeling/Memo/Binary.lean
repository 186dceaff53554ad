-- The binary serializer of `elle`. The fields have no names in this format: a
-- reader finds them by their order alone. A number takes 1, 2, 3 or 9 bytes, and
-- all other values are built on numbers.
import Mathlib.Tactic.Ring
import Memo.Codec
import Memo.PaxosServer

open ops codec

namespace elle.binary

/-- What reading throws. A number that ends after its first byte is read from memory that was not
initialized. -/
inductive Error where
  | error (what : String)
  | overflow (size : Nat) (positive : Bool) (value : Int)
  | short_read (expected got : Nat)
  | bad_alloc
  | assert_error (condition : String)
  | abort (what : String)
  | uninitialized
deriving DecidableEq

/-! ## Numbers -/

/-- The bytes of a machine integer, the lowest first. -/
def to_memory : Nat → Nat → Bytes
  | 0, _ => []
  | size + 1, m => UInt8.ofNat m :: to_memory size (m / 256)

def of_memory : Bytes → Nat
  | [] => 0
  | c :: s => c.toNat + 256 * of_memory s

/-- The value that an `int64_t` has, modulo `2 ^ 64`. -/
def int64 (n : Int) : Int := n.bmod (2 ^ 64)

/-- The opposite of a negative `int64_t`. The lowest one is its own opposite. -/
def magnitude (n : Int) : Int := if n < 0 then int64 (-n) else n

/-- `SerializerOut::serialize_number`: the bytes and the size that it returns. -/
def SerializerOut.serialize_number (n : Int) : Bytes × Nat :=
  let m := magnitude n
  let sgn := if n < 0 then 0x80 else 0
  if m ≤ 0x3f then ([UInt8.ofNat (sgn + (m % 0x100).toNat)], 1)
  else if m ≤ 0x1fff then
    ([UInt8.ofNat (sgn + 0x40 + m.toNat / 2 ^ 8), UInt8.ofNat m.toNat], 2)
  else if m ≤ 0x0fffff then
    ([UInt8.ofNat (sgn + 0x60 + m.toNat / 2 ^ 16), UInt8.ofNat (m.toNat / 2 ^ 8),
      UInt8.ofNat m.toNat], 3)
  else (UInt8.ofNat (sgn + 0x7f) :: to_memory 8 m.toNat, 9)

def put_number (n : Int) : Bytes := (SerializerOut.serialize_number n).1

def get_byte : Op Bytes Error UInt8
  | [] => (.error (.error "end of stream while reading number"), [])
  | c :: s => (.ok c, s)

/-- The sign is the high bit of the first byte. -/
def signed (c : UInt8) (value : Int) : Int := if 0x80 ≤ c.toNat then int64 (-value) else value

/-- `SerializerIn::serialize_number`. The bits of the first byte under the sign say how many bytes
there are. -/
def SerializerIn.serialize_number : Op Bytes Error (Int × Nat) := do
  let c ← get_byte
  if c.toNat % 0x80 < 0x40 then pure (signed c (c.toNat % 0x40 : Nat), 1)
  else if c.toNat % 0x40 < 0x20 then do
    let c2 ← get_byte
    pure (signed c (c.toNat % 0x20 * 2 ^ 8 + c2.toNat : Nat), 2)
  else if c.toNat % 0x20 < 0x10 then do
    let c2 ← get_byte
    let c3 ← get_byte
    pure (signed c (c.toNat % 0x10 * 2 ^ 16 + c2.toNat * 2 ^ 8 + c3.toNat : Nat), 3)
  else do
    let value ← get_bytes 8 fun _ => .uninitialized
    pure (signed c (int64 (of_memory value)), 9)

def get_number : Op Bytes Error Int := do
  let read ← SerializerIn.serialize_number
  pure read.1

/-! ## Machine integers -/

theorem of_memory_to_memory (size m : Nat) : of_memory (to_memory size m) = m % 256 ^ size := by
  induction size generalizing m with
  | zero => simp [to_memory, of_memory, Nat.mod_one]
  | succ size ih =>
    unfold to_memory of_memory
    rw [ih, UInt8.toNat_ofNat', Nat.pow_succ' (n := size), Nat.mod_mul]

@[simp] theorem to_memory_length (size m : Nat) : (to_memory size m).length = size := by
  induction size generalizing m with
  | zero => rfl
  | succ size ih => simp [to_memory, ih]

variable {n value : Int} {u : Bytes} {v : UInt64}

theorem int64_of_range (hl : -2 ^ 63 ≤ n) (hu : n < 2 ^ 63) : int64 n = n := by
  unfold int64
  rw [Int.bmod_eq_of_le] <;> omega

theorem int64_of_high (hl : 2 ^ 63 ≤ n) (hu : n < 2 ^ 64) : int64 n = n - 2 ^ 64 := by
  unfold int64 Int.bmod
  simp only
  split <;> omega

theorem int64_range (n : Int) : -2 ^ 63 ≤ int64 n ∧ int64 n < 2 ^ 63 := by
  unfold int64 Int.bmod
  simp only
  split <;> omega

theorem magnitude_eq (hl : -2 ^ 63 < n) : magnitude n = n.natAbs := by
  unfold magnitude
  by_cases hn : n < 0
  · rw [if_pos hn, int64_of_range (by omega) (by omega)]
    omega
  · rw [if_neg hn]
    omega

/-! ## The forms of a number -/

theorem get_byte_cons (c : UInt8) (s : Bytes) : get_byte (c :: s) = (.ok c, s) := rfl

theorem get_byte_ok {s r : Bytes} {c : UInt8} (h : get_byte s = (.ok c, r)) : s = c :: r := by
  cases s with
  | nil => cases h
  | cons c' s =>
    cases h
    rfl

/-- The bytes that are read as a number. Only one of these forms of a number is written. -/
inductive Form : Bytes → Int → Prop where
  | one {c : UInt8} (h : c.toNat % 0x80 < 0x40) : Form [c] (signed c (c.toNat % 0x40 : Nat))
  | two {c c2 : UInt8} (h : 0x40 ≤ c.toNat % 0x80) (h' : c.toNat % 0x40 < 0x20) :
      Form [c, c2] (signed c (c.toNat % 0x20 * 2 ^ 8 + c2.toNat : Nat))
  | three {c c2 c3 : UInt8} (h : 0x60 ≤ c.toNat % 0x80) (h' : c.toNat % 0x20 < 0x10) :
      Form [c, c2, c3] (signed c (c.toNat % 0x10 * 2 ^ 16 + c2.toNat * 2 ^ 8 + c3.toNat : Nat))
  | nine {c : UInt8} {u : Bytes} (h : 0x70 ≤ c.toNat % 0x80) (hu : u.length = 8) :
      Form (c :: u) (signed c (int64 (of_memory u)))

theorem Form.read (h : Form u n) (rest : Bytes) :
    SerializerIn.serialize_number (u ++ rest) = (.ok (n, u.length), rest) := by
  unfold SerializerIn.serialize_number
  cases h with
  | one h =>
    rw [List.cons_append, Op.bind_of_ok (get_byte_cons _ _), if_pos h]
    rfl
  | two h h' =>
    rw [List.cons_append, Op.bind_of_ok (get_byte_cons _ _), if_neg (by omega), if_pos h']
    rfl
  | three h h' =>
    rw [List.cons_append, Op.bind_of_ok (get_byte_cons _ _), if_neg (by omega),
      if_neg (by omega), if_pos h']
    rfl
  | @nine c u h hu =>
    rw [List.cons_append, Op.bind_of_ok (get_byte_cons _ _), if_neg (by omega), if_neg (by omega),
      if_neg (by omega), ← hu, Op.bind_of_ok (get_bytes_append u rest _), List.length_cons, hu]
    rfl

theorem Form.of_read {s r : Bytes} {size : Nat}
    (h : SerializerIn.serialize_number s = (.ok (n, size), r)) :
    ∃ u, Form u n ∧ s = u ++ r := by
  obtain ⟨c, s₁, h₁, h⟩ := Op.bind_eq_ok h
  rw [get_byte_ok h₁]
  by_cases h40 : c.toNat % 0x80 < 0x40
  · rw [if_pos h40] at h
    cases h
    exact ⟨[c], .one h40, rfl⟩
  · rw [if_neg h40] at h
    by_cases h20 : c.toNat % 0x40 < 0x20
    · rw [if_pos h20] at h
      obtain ⟨c2, s₂, h₂, h⟩ := Op.bind_eq_ok h
      cases h
      rw [get_byte_ok h₂]
      exact ⟨[c, c2], .two (by omega) h20, rfl⟩
    · rw [if_neg h20] at h
      by_cases h10 : c.toNat % 0x20 < 0x10
      · rw [if_pos h10] at h
        obtain ⟨c2, s₂, h₂, h⟩ := Op.bind_eq_ok h
        obtain ⟨c3, s₃, h₃, h⟩ := Op.bind_eq_ok h
        cases h
        rw [get_byte_ok h₂, get_byte_ok h₃]
        exact ⟨[c, c2, c3], .three (by omega) h10, rfl⟩
      · rw [if_neg h10] at h
        obtain ⟨u, s₂, h₂, h⟩ := Op.bind_eq_ok h
        cases h
        obtain ⟨hlen, hu⟩ := get_bytes_ok h₂
        rw [hu]
        exact ⟨c :: u, .nine (by omega) hlen, rfl⟩

theorem signed_natAbs {c : UInt8} (hl : -2 ^ 63 < n) (hu : n < 2 ^ 63)
    (hc : 0x80 ≤ c.toNat ↔ n < 0) : signed c n.natAbs = n := by
  unfold signed
  by_cases hn : n < 0
  · rw [if_pos (hc.2 hn), int64_of_range (by omega) (by omega)]
    omega
  · rw [if_neg (mt hc.1 hn)]
    omega

theorem Form.of_eq {c : UInt8} {m : Int} (h : Form u (signed c m)) (hm : m = n.natAbs)
    (hl : -2 ^ 63 < n) (hu : n < 2 ^ 63) (hc : 0x80 ≤ c.toNat ↔ n < 0) :
    Form u n := by
  rw [hm, signed_natAbs hl hu hc] at h
  exact h

theorem put_number_form (hl : -2 ^ 63 < n) (hu : n < 2 ^ 63) : Form (put_number n) n := by
  unfold put_number SerializerOut.serialize_number
  rw [magnitude_eq hl]
  simp only
  generalize hsgn : (if n < 0 then 0x80 else 0) = sgn
  have hs : (sgn = 0x80 ∧ n < 0) ∨ (sgn = 0 ∧ ¬n < 0) := by
    by_cases hn : n < 0
    · rw [if_pos hn] at hsgn
      omega
    · rw [if_neg hn] at hsgn
      omega
  by_cases h₁ : (n.natAbs : Int) ≤ 0x3f
  · rw [if_pos h₁]
    refine (Form.one ?_).of_eq ?_ hl hu ?_
    all_goals rw [UInt8.toNat_ofNat']
    all_goals omega
  · rw [if_neg h₁]
    by_cases h₂ : (n.natAbs : Int) ≤ 0x1fff
    · rw [if_pos h₂]
      refine (Form.two ?_ ?_).of_eq ?_ hl hu ?_
      all_goals simp only [UInt8.toNat_ofNat']
      all_goals omega
    · rw [if_neg h₂]
      by_cases h₃ : (n.natAbs : Int) ≤ 0x0fffff
      · rw [if_pos h₃]
        refine (Form.three ?_ ?_).of_eq ?_ hl hu ?_
        all_goals simp only [UInt8.toNat_ofNat']
        all_goals omega
      · rw [if_neg h₃]
        refine (Form.nine ?_ (to_memory_length 8 _)).of_eq ?_ hl hu ?_
        · rw [UInt8.toNat_ofNat']
          omega
        · rw [of_memory_to_memory, int64_of_range] <;> omega
        · rw [UInt8.toNat_ofNat']
          omega

/-! ## Numbers are read back -/

/-- The length of a number goes with its absolute value. -/
def number_size (m : Int) : Nat :=
  if m ≤ 0x3f then 1 else if m ≤ 0x1fff then 2 else if m ≤ 0x0fffff then 3 else 9

theorem number_size_mono {m : Int} (h : m ≤ n) : number_size m ≤ number_size n := by
  unfold number_size
  split_ifs <;> omega

theorem put_number_length (n : Int) : (put_number n).length = number_size (magnitude n) := by
  unfold put_number SerializerOut.serialize_number number_size
  simp only
  split
  · rfl
  · split
    · rfl
    · split
      · rfl
      · simp

theorem serialize_number_size (n : Int) :
    (SerializerOut.serialize_number n).2 = (put_number n).length := by
  unfold put_number SerializerOut.serialize_number
  simp only
  split
  · rfl
  · split
    · rfl
    · split
      · rfl
      · simp

theorem get_number_of_form (h : Form u n) (rest : Bytes) :
    get_number (u ++ rest) = (.ok n, rest) := by
  unfold get_number
  rw [Op.bind_of_ok (h.read rest)]
  rfl

theorem get_put_number (hl : -2 ^ 63 < n) (hu : n < 2 ^ 63) (rest : Bytes) :
    get_number (put_number n ++ rest) = (.ok n, rest) :=
  get_number_of_form (put_number_form hl hu) rest

theorem get_number_ok {s r : Bytes} (h : get_number s = (.ok n, r)) :
    ∃ u, Form u n ∧ s = u ++ r := by
  obtain ⟨read, s₁, h₁, h⟩ := Op.bind_eq_ok h
  cases h
  exact Form.of_read h₁

theorem serialize_lowest : SerializerOut.serialize_number (-2 ^ 63) = ([0x80], 1) := by decide

theorem form_zero : Form [0x80] 0 := Form.one (by decide)

/-- `_serialize(uint64_t&)`, of the two serializers: the number travels as an `int64_t`. -/
def put_uint64 (v : UInt64) : Bytes := put_number (int64 v.toNat)

def get_uint64 : Op Bytes Error UInt64 := do
  let n ← get_number
  pure (UInt64.ofNat (n % 2 ^ 64).toNat)

/-- The number is read back with the size that was returned when it was written, and all that
follows it is left. -/
def ReadsBack (n : Int64) (rest : Bytes) : Prop :=
  SerializerIn.serialize_number ((SerializerOut.serialize_number n.toInt).1 ++ rest) =
      (.ok (n.toInt, (SerializerOut.serialize_number n.toInt).2), rest) ∧
    (SerializerOut.serialize_number n.toInt).2 = (SerializerOut.serialize_number n.toInt).1.length

theorem reads_back {n : Int64} (h : n ≠ Int64.minValue) (rest : Bytes) : ReadsBack n rest := by
  have hl := n.le_toInt
  have hu := n.toInt_lt
  have hne : n.toInt ≠ -2 ^ 63 :=
    fun he => h (Int64.toInt.inj (he.trans Int64.toInt_minValue.symm))
  have hform := put_number_form (n := n.toInt) (by omega) hu
  refine ⟨?_, serialize_number_size n.toInt⟩
  rw [serialize_number_size]
  exact hform.read rest

theorem lowest_is_lost (rest : Bytes) : ¬ReadsBack Int64.minValue rest := by
  intro h
  have hread := h.1
  rw [Int64.toInt_minValue, serialize_lowest, form_zero.read rest] at hread
  simp at hread

theorem uint64_range (h : v.toNat ≠ 2 ^ 63) : -2 ^ 63 < int64 v.toNat := by
  have hv := v.toNat_lt
  unfold int64 Int.bmod
  simp only
  split <;> omega

theorem uint64_reads_back (h : v.toNat ≠ 2 ^ 63) (rest : Bytes) :
    get_uint64 (put_uint64 v ++ rest) = (.ok v, rest) := by
  unfold get_uint64 put_uint64
  rw [Op.bind_of_ok (get_put_number (uint64_range h) (int64_range _).2 rest)]
  have hv := v.toNat_lt
  have hmod : (int64 v.toNat % 2 ^ 64).toNat = v.toNat := by
    unfold int64 Int.bmod
    simp only
    split <;> omega
  rw [hmod, UInt64.ofNat_toNat]
  rfl

theorem middle_is_lost (h : v.toNat = 2 ^ 63) (rest : Bytes) :
    get_uint64 (put_uint64 v ++ rest) ≠ (.ok v, rest) := by
  have hput : put_uint64 v = [0x80] := by
    unfold put_uint64
    rw [h]
    decide
  unfold get_uint64
  rw [hput, Op.bind_of_ok (get_number_of_form form_zero rest)]
  intro he
  cases he
  simp at h

/-- A number is read back from what is written, whatever follows it, but for the lowest one, and so
is an unsigned number but for the one that has its bits. -/
theorem numbers_are_read_back_but_the_lowest (n : Int64) (v : UInt64) (rest : Bytes) :
    (ReadsBack n rest ↔ n ≠ Int64.minValue) ∧
      (get_uint64 (put_uint64 v ++ rest) = (.ok v, rest) ↔ v.toNat ≠ 2 ^ 63) := by
  constructor
  · constructor
    · intro h hn
      rw [hn] at h
      exact lowest_is_lost rest h
    · exact fun hn => reads_back hn rest
  · constructor
    · exact fun h hv => middle_is_lost hv rest h
    · exact fun hv => uint64_reads_back hv rest

/-- The lowest number is written as one byte, and 0 is read there. -/
theorem the_lowest_number_is_read_as_zero :
    ¬((∀ (n : Int64) rest, ReadsBack n rest) ∧
      ∀ (v : UInt64) rest, get_uint64 (put_uint64 v ++ rest) = (.ok v, rest)) :=
  fun h => lowest_is_lost [] (h.1 Int64.minValue [])

/-! ## No form of a number is shorter -/

theorem magnitude_signed (c : UInt8) {k : Int} (hl : 0 ≤ k) (hu : k < 2 ^ 63) :
    magnitude (signed c k) = k := by
  unfold signed
  split
  · rw [int64_of_range (by omega) (by omega), magnitude_eq (by omega)]
    omega
  · rw [magnitude_eq (by omega)]
    omega

theorem number_size_le (m : Int) : number_size m ≤ 9 := by
  unfold number_size
  split_ifs <;> omega

theorem Form.minimal (h : Form u n) : (put_number n).length ≤ u.length := by
  rw [put_number_length]
  cases h with
  | @one c h =>
    rw [magnitude_signed c (by omega) (by omega)]
    apply number_size_mono (n := 0x3f)
    omega
  | @two c c2 h h' =>
    have h2 := c2.toNat_lt
    rw [magnitude_signed c (by omega) (by omega)]
    apply number_size_mono (n := 0x1fff)
    omega
  | @three c c2 c3 h h' =>
    have h2 := c2.toNat_lt
    have h3 := c3.toNat_lt
    rw [magnitude_signed c (by omega) (by omega)]
    apply number_size_mono (n := 0x0fffff)
    omega
  | nine h hu =>
    rw [List.length_cons, hu]
    exact number_size_le _

theorem Form.range (h : Form u n) : -2 ^ 63 ≤ n := by
  have hsigned : ∀ (c : UInt8) {k : Int}, -2 ^ 63 ≤ k → -2 ^ 63 ≤ signed c k := by
    intro c k hk
    unfold signed
    split
    · exact (int64_range _).1
    · exact hk
  cases h with
  | one h => exact hsigned _ (by omega)
  | two h h' => exact hsigned _ (by omega)
  | three h h' => exact hsigned _ (by omega)
  | nine h hu => exact hsigned _ (int64_range _).1

theorem get_number_takes : Takes get_number fun n => (put_number n).length := by
  intro s n r h
  obtain ⟨u, hform, hs⟩ := get_number_ok h
  exact ⟨u, hs, hform.minimal⟩

/-! ## Values that are a number -/

/-- A value that travels as a number, which is checked when it is read. -/
def checked {α : Type} (repr : α → Int) (of : Int → Except Error α) (good : α → Prop)
    (hrepr : ∀ a, good a → -2 ^ 63 < repr a ∧ repr a < 2 ^ 63)
    (hof : ∀ a, good a → of (repr a) = .ok a) (hvalid : ∀ n a, of n = .ok a → good a) :
    Codec Error α where
  put a := put_number (repr a)
  get := do
    let n ← get_number
    Op.ofExcept (of n)
  fits := good
  reads := by
    intro a ha rest
    rw [Op.bind_of_ok (get_put_number (hrepr a ha).1 (hrepr a ha).2 rest), hof a ha]
    rfl
  valid := by
    intro s a r h
    obtain ⟨n, s₁, -, h⟩ := Op.bind_eq_ok h
    exact hvalid n a (Op.ofExcept_eq_ok h).1

theorem checked_minimal {α : Type} {repr : α → Int} {of : Int → Except Error α} {good : α → Prop}
    {hrepr : ∀ a, good a → -2 ^ 63 < repr a ∧ repr a < 2 ^ 63}
    {hof : ∀ a, good a → of (repr a) = .ok a} {hvalid : ∀ n a, of n = .ok a → good a}
    (h : ∀ n a, -2 ^ 63 ≤ n → of n = .ok a →
      number_size (magnitude (repr a)) ≤ number_size (magnitude n)) :
    (checked repr of good hrepr hof hvalid).Minimal := by
  apply Takes.bind get_number_takes
  intro n ⟨s, r, hn⟩
  apply Takes.ofExcept
  intro a ha
  obtain ⟨u, hform, -⟩ := get_number_ok hn
  have hle := h n a hform.range ha
  change (put_number (repr a)).length - (put_number n).length = 0
  rw [put_number_length, put_number_length]
  omega

/-- `SerializerIn::_serialize_int`: a number within the limits of a type. -/
def _serialize_int (size : Nat) (min max : Int) (value : Int) : Except Error Int :=
  if max < value then .error (.overflow size true value)
  else if value < min then .error (.overflow size false value)
  else .ok value

theorem _serialize_int_ok {size : Nat} {min max v : Int} :
    _serialize_int size min max value = .ok v ↔ (min ≤ value ∧ value ≤ max) ∧ v = value := by
  unfold _serialize_int
  split
  · simp
    omega
  · split
    · simp
      omega
    · simp only [Except.ok.injEq]
      omega

/-- The values of an `int`. -/
def int_range (n : Int) : Prop := -2 ^ 31 ≤ n ∧ n < 2 ^ 31

/-- `_serialize_int` for an `int`. -/
def of_int32 (value : Int) : Except Error Int := _serialize_int 32 (-2 ^ 31) (2 ^ 31 - 1) value

theorem of_int32_ok : of_int32 value = .ok n ↔ int_range n ∧ value = n := by
  unfold of_int32 int_range
  rw [_serialize_int_ok]
  omega

theorem int_range.number (h : int_range n) : -2 ^ 63 < n ∧ n < 2 ^ 63 := by
  unfold int_range at h
  omega

def int32 : Codec Error Int :=
  checked id of_int32 int_range (fun _ h => h.number) (fun _ h => of_int32_ok.2 ⟨h, rfl⟩)
    fun _ _ h => (of_int32_ok.1 h).1

theorem int32_minimal : int32.Minimal := by
  apply checked_minimal
  intro n a _ h
  rw [(of_int32_ok.1 h).2]
  exact Nat.le_refl _

def of_uint8 (value : Int) : Except Error Nat := (_serialize_int 8 0 255 value).map Int.toNat

theorem of_uint8_ok {n : Nat} : of_uint8 value = .ok n ↔ n < 256 ∧ value = n := by
  unfold of_uint8
  cases hv : _serialize_int 8 0 255 value with
  | error e =>
    have hno : ¬_serialize_int 8 0 255 value = .ok n := by simp [hv]
    rw [_serialize_int_ok] at hno
    simp only [Except.map, reduceCtorEq, false_iff]
    omega
  | ok v =>
    have hr := _serialize_int_ok.1 hv
    simp only [Except.map, Except.ok.injEq]
    omega

/-- An `uint8_t`. -/
def uint8 : Codec Error Nat :=
  checked (fun n => n) of_uint8 (· < 256) (fun _ h => by omega)
    (fun _ h => of_uint8_ok.2 ⟨h, rfl⟩) fun _ _ h => (of_uint8_ok.1 h).1

theorem uint8_minimal : uint8.Minimal := by
  apply checked_minimal
  intro n a _ h
  rw [(of_uint8_ok.1 h).2]

/-- `SerializerIn::_serialize(bool&)`: an `int` that must be 0 or 1. -/
def of_bool (value : Int) : Except Error Bool := do
  let val ← of_int32 value
  if val ≠ 0 ∧ val ≠ 1 then .error (.overflow 1 true val) else .ok (decide (val ≠ 0))

def bool_number (b : Bool) : Int := if b then 1 else 0

theorem of_bool_ok {b : Bool} : of_bool value = .ok b ↔ value = bool_number b := by
  unfold of_bool
  by_cases hr : int_range value
  · rw [of_int32_ok.2 ⟨hr, rfl⟩]
    by_cases h0 : value = 0
    · cases b <;> simp [bool_number, h0, Bind.bind, Except.bind]
    · by_cases h1 : value = 1
      · cases b <;> simp [bool_number, h1, Bind.bind, Except.bind]
      · cases b <;> simp [bool_number, h0, h1, Bind.bind, Except.bind]
  · have hne : value ≠ bool_number b := by
      unfold int_range at hr
      cases b <;> simp only [bool_number] <;> simp <;> omega
    cases hv : of_int32 value with
    | error e => simp [hne, Bind.bind, Except.bind]
    | ok v => exact absurd ((of_int32_ok.1 hv).2 ▸ (of_int32_ok.1 hv).1) hr

def bool : Codec Error Bool :=
  checked bool_number of_bool (fun _ => True) (fun b _ => by cases b <;> simp [bool_number])
    (fun _ _ => of_bool_ok.2 rfl) fun _ _ _ => trivial

theorem bool_minimal : bool.Minimal := by
  apply checked_minimal
  intro n a _ h
  rw [of_bool_ok.1 h]

/-- A number as an `int`. -/
def to_int (n : Int) : Int := n.bmod (2 ^ 32)

theorem to_int_of_lt {n : Nat} (h : n < 2 ^ 31) : to_int n = n := by
  unfold to_int
  rw [Int.bmod_eq_of_le] <;> omega

theorem to_int_lt (n : Int) : (to_int n).toNat < 2 ^ 31 := by
  unfold to_int Int.bmod
  simp only
  split <;> omega

theorem to_int_size (hl : -2 ^ 63 ≤ n) :
    number_size (magnitude ((to_int n).toNat : Int)) ≤ number_size (magnitude n) := by
  by_cases hm : n = -2 ^ 63
  · rw [hm]
    decide
  · apply number_size_mono
    rw [magnitude_eq (n := n) (by omega), magnitude_eq (by omega)]
    unfold to_int Int.bmod
    simp only
    split <;> omega

/-- The number of elements of a collection. A negative one reads no elements. -/
def count : Codec Error Nat :=
  checked (fun n => to_int n) (fun n => .ok (to_int n).toNat) (· < 2 ^ 31)
    (fun n h => by
      rw [to_int_of_lt h]
      omega)
    (fun n h => by rw [to_int_of_lt h, to_int_of_lt h, Int.toNat_natCast])
    fun n a h => by
      cases h
      exact to_int_lt n

theorem count_minimal : count.Minimal := by
  apply checked_minimal
  intro n a hl h
  cases h
  rw [to_int_of_lt (to_int_lt n)]
  exact to_int_size hl

/-! ## Buffers and options -/

/-- The size of a buffer travels as a number, and is read as an `int`. -/
def get_buffer : Op Bytes Error Bytes := do
  let n ← get_number
  if to_int n < 0 then Op.throw .bad_alloc
  else get_bytes (to_int n).toNat (.short_read (to_int n).toNat)

def buffer : Codec Error Bytes where
  put b := put_number b.length ++ b
  get := get_buffer
  fits b := b.length < 2 ^ 31
  reads := by
    intro b h rest
    unfold get_buffer
    rw [List.append_assoc, Op.bind_of_ok (get_put_number (by omega) (by omega) _),
      to_int_of_lt h, if_neg (by omega), Int.toNat_natCast, get_bytes_append]
  valid := by
    intro s b r h
    obtain ⟨n, s₁, -, h⟩ := Op.bind_eq_ok h
    split at h
    · cases h
    · rw [(get_bytes_ok h).1]
      exact to_int_lt n

theorem buffer_minimal : buffer.Minimal := by
  apply Takes.bind get_number_takes
  intro n ⟨s₀, r₀, hn⟩
  obtain ⟨u, hform, -⟩ := get_number_ok hn
  split
  · exact Takes.throw _ _
  · intro s b r h
    obtain ⟨hlen, hs⟩ := get_bytes_ok h
    refine ⟨b, hs, ?_⟩
    have hsize := to_int_size hform.range
    change (put_number b.length ++ b).length - (put_number n).length ≤ b.length
    rw [List.length_append, put_number_length, put_number_length, hlen]
    omega

def option {α : Type} (c : Codec Error α) : Codec Error (Option α) :=
  c.option bool fun _ => trivial

/-! ## Versions -/

/-- The parts of an `elle::Version` are bytes. -/
def version_range (v : elle.Version) : Prop := v.major < 256 ∧ v.minor < 256 ∧ v.subminor < 256

def version : Codec Error elle.Version :=
  (uint8.pair (uint8.pair uint8)).convert (fun v => (v.major, v.minor, v.subminor))
    (fun p => .ok ⟨p.1, p.2.1, p.2.2⟩) version_range (fun _ h => ⟨h, rfl⟩) fun _ _ hp h => by
      cases h
      exact hp

theorem version_minimal : version.Minimal := by
  apply Codec.convert_minimal
  · exact Codec.pair_minimal uint8_minimal (Codec.pair_minimal uint8_minimal uint8_minimal)
  · intro p v h
    cases h
    exact Nat.le_refl _

end elle.binary
