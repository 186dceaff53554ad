-- The types that are serialized without code of their own: booleans, integers,
-- strings and buffers, and the containers of these.
import Memo.Binary
import Memo.Maps

open codec maps

namespace elle.serialization

/-- The integers of a fixed width. -/
inductive Integer where
  | int8
  | int16
  | int32
  | int64
  | uint8
  | uint16
  | uint32
  | uint64
deriving DecidableEq

namespace Integer

/-- `std::numeric_limits<T>::min()`. -/
def min : Integer → Int
  | int8 => -2 ^ 7
  | int16 => -2 ^ 15
  | int32 => -2 ^ 31
  | int64 => -2 ^ 63
  | _ => 0

/-- `std::numeric_limits<T>::max()`. -/
def max : Integer → Int
  | int8 => 2 ^ 7 - 1
  | int16 => 2 ^ 15 - 1
  | int32 => 2 ^ 31 - 1
  | int64 => 2 ^ 63 - 1
  | uint8 => 2 ^ 8 - 1
  | uint16 => 2 ^ 16 - 1
  | uint32 => 2 ^ 32 - 1
  | uint64 => 2 ^ 64 - 1

/-- `sizeof(T) * 8`. -/
def size : Integer → Nat
  | int8 => 8
  | int16 => 16
  | int32 => 32
  | int64 => 64
  | uint8 => 8
  | uint16 => 16
  | uint32 => 32
  | uint64 => 64

abbrev Value (k : Integer) : Type := { n : Int // k.min ≤ n ∧ n ≤ k.max }

variable {k : Integer} {F : Type}

theorem Value.range (n : k.Value) : -2 ^ 63 ≤ n.1 ∧ n.1 < 2 ^ 64 := by
  obtain ⟨n, hl, hu⟩ := n
  cases k <;> simp only [min, max] at hl hu ⊢ <;> omega

theorem Value.signed_range (hk : k ≠ uint64) (n : k.Value) :
    -2 ^ 63 ≤ n.1 ∧ n.1 < 2 ^ 63 := by
  obtain ⟨n, hl, hu⟩ := n
  cases k <;> simp only [min, max] at hl hu ⊢ <;> first | omega | exact absurd rfl hk

/-- `_serialize_int`, of the two readers. -/
def _serialize_int {F : Type} (overflow : Bool → Int → F) (k : Integer) (value : Int) :
    Except F k.Value :=
  if hmax : k.max < value then .error (overflow true value)
  else if hmin : value < k.min then .error (overflow false value)
  else .ok ⟨value, by omega⟩

/-- `_serialize` of an integer, of the two readers: a number that is an `int64_t`, or the bits of an
`uint64_t`, or is checked. -/
def read {F : Type} (overflow : Bool → Int → F) (k : Integer) (n : Int) : Except F k.Value :=
  match k with
  | int64 => .ok ⟨elle.binary.int64 n, by
      have h := elle.binary.int64_range n
      simp only [min, max]
      omega⟩
  | uint64 => .ok ⟨elle.binary.int64 n % 2 ^ 64, by
      simp only [min, max]
      omega⟩
  | k => _serialize_int overflow k (elle.binary.int64 n)

theorem read_back (overflow : Bool → Int → F) (n : k.Value) {m : Int}
    (h : elle.binary.int64 m = elle.binary.int64 n.1) : read overflow k m = .ok n := by
  have hrange := n.range
  have hsigned : k ≠ uint64 → elle.binary.int64 m = n.1 := fun hk =>
    h.trans (elle.binary.int64_of_range (n.signed_range hk).1 (n.signed_range hk).2)
  have hlimits : _serialize_int overflow k n.1 = .ok n := by
    unfold _serialize_int
    rw [dif_neg (by have := n.2.2; omega), dif_neg (by have := n.2.1; omega)]
  unfold read
  cases k with
  | int64 => exact congrArg Except.ok (Subtype.ext (hsigned (by decide)))
  | uint64 =>
    apply congrArg Except.ok
    apply Subtype.ext
    have hl := n.2.1
    simp only [min] at hl
    change elle.binary.int64 m % 2 ^ 64 = n.1
    rw [h]
    unfold elle.binary.int64 Int.bmod
    simp only
    split <;> omega
  | _ => exact (congrArg (_serialize_int overflow _) (hsigned (by decide))).trans hlimits

/-- What is made of a number is exact: the number when the type has it, and else the error. -/
def Exact {F : Type} (overflow : Bool → Int → F) (k : Integer) (n : Int) :
    Except F k.Value → Prop
  | .ok v => v.1 = n
  | .error e => ¬ (k.min ≤ n ∧ n ≤ k.max) ∧ ∃ positive value, e = overflow positive value

theorem _serialize_int_exact (overflow : Bool → Int → F) (k : Integer) (n : Int) :
    Exact overflow k n (_serialize_int overflow k n) := by
  unfold _serialize_int
  split
  · exact ⟨by omega, true, n, rfl⟩
  · split
    · exact ⟨by omega, false, n, rfl⟩
    · rfl

theorem _serialize_int_wrapped (overflow : Bool → Int → F) {n m : Int} (hlt : m < n)
    (hmax : m ≤ k.max) (hn : k.max < n) :
    Exact overflow k n (_serialize_int overflow k m) ↔ m < k.min := by
  unfold _serialize_int
  rw [dif_neg (by omega)]
  split
  · exact iff_of_true ⟨by omega, false, m, rfl⟩ (by assumption)
  · exact iff_of_false (fun h : m = n => by omega) (by assumption)

theorem limits (k : Integer) : -2 ^ 63 ≤ k.min ∧ k.min ≤ 0 ∧ 0 < k.max := by
  cases k <;> decide

theorem max_lt (hk : k ≠ uint64) : k.max < 2 ^ 63 := by
  cases k <;> first | decide | exact absurd rfl hk

theorem read_narrow (overflow : Bool → Int → F) (hs : k ≠ int64) (hu : k ≠ uint64) (n : Int) :
    read overflow k n = _serialize_int overflow k (elle.binary.int64 n) := by
  cases k <;> first | rfl | exact absurd rfl hs | exact absurd rfl hu

/-- The numbers that a type reads exactly: no negative one when it has all the others, and when it
has a sign, those whose `int64_t` is below what it has. -/
theorem read_exact_iff (overflow : Bool → Int → F) (k : Integer) {n : Int} (hl : -2 ^ 63 ≤ n)
    (hu : n < 2 ^ 64) :
    Exact overflow k n (read overflow k n) ↔
      (k = uint64 → 0 ≤ n) ∧ (k.min < 0 → n < 2 ^ 64 + k.min) := by
  obtain ⟨hlowest, hmin, hmax⟩ := k.limits
  by_cases hsigned : k = int64
  · subst hsigned
    change elle.binary.int64 n = n ↔
      (int64 = uint64 → 0 ≤ n) ∧ ((-2 ^ 63 : Int) < 0 → n < 2 ^ 64 + -2 ^ 63)
    by_cases hhigh : n < 2 ^ 63
    · have h64 := elle.binary.int64_of_range hl hhigh
      simp [h64]
      omega
    · have h64 := elle.binary.int64_of_high (by omega) hu
      simp [h64]
      omega
  by_cases hunsigned : k = uint64
  · subst hunsigned
    change elle.binary.int64 n % 2 ^ 64 = n ↔ (uint64 = uint64 → 0 ≤ n) ∧ ((0 : Int) < 0 → _)
    by_cases hhigh : n < 2 ^ 63
    · rw [elle.binary.int64_of_range hl hhigh]
      simp
      omega
    · rw [elle.binary.int64_of_high (by omega) hu]
      simp
      omega
  rw [read_narrow overflow hsigned hunsigned]
  have hmax' := max_lt hunsigned
  by_cases hhigh : n < 2 ^ 63
  · rw [elle.binary.int64_of_range hl hhigh]
    exact iff_of_true (_serialize_int_exact overflow k n)
      ⟨fun h => absurd h hunsigned, fun _ => by omega⟩
  · rw [elle.binary.int64_of_high (by omega) hu,
      _serialize_int_wrapped overflow (by omega) (by omega) (by omega)]
    constructor
    · exact fun h => ⟨fun h' => absurd h' hunsigned, fun _ => by omega⟩
    · rintro ⟨-, h⟩
      by_cases hneg : k.min < 0
      · have := h hneg
        omega
      · omega

end Integer

/-- A type. The maps whose keys are strings are apart. -/
inductive Ty where
  | bool
  | integer (k : Integer)
  | string
  | buffer
  | vector (t : Ty)
  | pair (t u : Ty)
  | dictionary (t : Ty)
  | assoc (k t : Ty)
  | option (t : Ty)
deriving DecidableEq

namespace Ty

/-- The values of a type. -/
def Value : Ty → Type
  | bool => Bool
  | integer k => k.Value
  | string => Bytes
  | buffer => Bytes
  | vector t => List t.Value
  | pair t u => t.Value × u.Value
  | dictionary t => Map Bytes t.Value
  | assoc k t => Assoc k.Value t.Value
  | option t => Option t.Value

/-- Values are compared by what they hold. -/
def decEq : (t : Ty) → DecidableEq t.Value
  | bool => inferInstanceAs (DecidableEq Bool)
  | integer k => inferInstanceAs (DecidableEq k.Value)
  | string => inferInstanceAs (DecidableEq Bytes)
  | buffer => inferInstanceAs (DecidableEq Bytes)
  | vector t => have := decEq t; inferInstanceAs (DecidableEq (List t.Value))
  | pair t u => have := decEq t; have := decEq u; inferInstanceAs (DecidableEq (t.Value × u.Value))
  | dictionary t => have := decEq t; inferInstanceAs (DecidableEq (Map Bytes t.Value))
  | assoc k t =>
    have := decEq k; have := decEq t; inferInstanceAs (DecidableEq (Assoc k.Value t.Value))
  | option t => have := decEq t; inferInstanceAs (DecidableEq (Option t.Value))

instance (t : Ty) : DecidableEq t.Value := decEq t

/-- An option, maybe in options, that holds no value. -/
def absent : (t : Ty) → t.Value → Bool
  | option _, none => true
  | option t, some v => absent t v
  | _, _ => false

end Ty

end elle.serialization
