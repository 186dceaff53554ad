-- Numbers as text: the digits of a number, and `strtol`, which takes what it can of what it is
-- given and never refuses.
import Mathlib.Data.List.TakeWhile
import Mathlib.Data.Nat.Digits.Lemmas
import Memo.Codec

open codec

namespace numerals

/-! ## Digits -/

/-- What a character is worth, when it is a digit in base 16. -/
def value (c : UInt8) : Option Nat :=
  if 0x30 ≤ c.toNat ∧ c.toNat ≤ 0x39 then some (c.toNat - 0x30)
  else if 0x61 ≤ c.toNat ∧ c.toNat ≤ 0x66 then some (c.toNat - 0x57)
  else if 0x41 ≤ c.toNat ∧ c.toNat ≤ 0x46 then some (c.toNat - 0x37)
  else none

/-- `isxdigit`. -/
def is_xdigit (c : UInt8) : Bool := (value c).isSome

/-- `isspace`. -/
def is_space (c : UInt8) : Bool := c = 0x20 || (0x09 ≤ c.toNat && c.toNat ≤ 0x0d)

/-- `tolower`. -/
def lower (c : UInt8) : UInt8 := if 0x41 ≤ c.toNat ∧ c.toNat ≤ 0x5a then c + 0x20 else c

theorem digit_plain {c : UInt8} {n : Nat} (h : value c = some n) :
    n < 16 ∧ c ≠ 0 ∧ is_space c = false ∧ c ≠ 0x2d ∧ c ≠ 0x2b := by
  have hall : ∀ m < 256, ∀ n ∈ value (UInt8.ofNat m),
      n < 16 ∧ UInt8.ofNat m ≠ 0 ∧ is_space (UInt8.ofNat m) = false ∧ UInt8.ofNat m ≠ 0x2d ∧
        UInt8.ofNat m ≠ 0x2b := by
    decide +kernel
  have hc := hall c.toNat c.toNat_lt n
  rw [UInt8.ofNat_toNat] at hc
  exact hc h

/-! ## `strtol` -/

/-- The sign that comes first: whether it is a minus, and what follows. -/
def signed : Bytes → Bool × Bytes
  | [] => (false, [])
  | c :: text =>
    if c = 0x2d then (true, text) else if c = 0x2b then (false, text) else (false, c :: text)

/-- `0x` is skipped when a digit follows it. -/
def skip : Bytes → Bytes
  | a :: b :: c :: text =>
    if a = 0x30 ∧ (b = 0x78 ∨ b = 0x58) ∧ is_xdigit c then c :: text else a :: b :: c :: text
  | text => text

/-- What a character is worth, when it is a digit in this base. -/
def worth (base : Nat) (c : UInt8) : Option Nat := (value c).filter (· < base)

/-- The number that the first digits make, after those that made `n`. -/
def number (base : Nat) : Nat → Bytes → Nat
  | n, [] => n
  | n, c :: text =>
    match worth base c with
    | some m => number base (n * base + m) text
    | none => n

/-- A number within the limits of a `long`. -/
def clamp (n : Int) : Int := max (-9223372036854775808) (min 9223372036854775807 n)

/-- The characters before the first NUL. -/
def c_str (text : Bytes) : Bytes := text.takeWhile (· ≠ 0)

/-- The sign and the digits of a text, after what is blank. -/
def parts (text : Bytes) : Bool × Bytes := signed ((c_str text).dropWhile is_space)

def strtol (base : Nat) (text : Bytes) : Int :=
  let digits := if base = 16 then skip (parts text).2 else (parts text).2
  let n : Int := number base 0 digits
  clamp (if (parts text).1 then -n else n)

theorem strtol_digits {a b : UInt8} {x y : Nat} (ha : value a = some x) (hb : value b = some y) :
    strtol 16 [a, b, 0] = x * 16 + y := by
  obtain ⟨hx, ha0, hspace, hminus, hplus⟩ := digit_plain ha
  obtain ⟨hy, hb0, -, -, -⟩ := digit_plain hb
  have hparts : parts [a, b, 0] = (false, [a, b]) := by
    simp [parts, c_str, List.takeWhile, ha0, hb0, hspace, signed, hminus, hplus]
  have hnumber : number 16 0 (skip [a, b]) = x * 16 + y := by
    simp [skip, number, worth, ha, hb, hx, hy, Option.filter]
  simp only [strtol, hparts, if_true, hnumber, clamp]
  simp
  omega

/-! ## Base 10 -/

/-- The character of a digit. -/
def char (d : Nat) : UInt8 := UInt8.ofNat (0x30 + d)

def decimal (n : Nat) : Bytes :=
  if n = 0 then [char 0] else (Nat.digits 10 n).reverse.map char

/-- A number, as `%s` prints it. -/
def print (n : Int) : Bytes := if n < 0 then 0x2d :: decimal n.natAbs else decimal n.natAbs

theorem worth_char {d : Nat} (h : d < 10) : worth 10 (char d) = some d := by
  have hall : ∀ d < 10, worth 10 (char d) = some d := by decide
  exact hall d h

theorem number_map {ds : List Nat} (h : ∀ d ∈ ds, d < 10) (n : Nat) :
    number 10 n (ds.map char) = ds.foldl (fun n d => n * 10 + d) n := by
  induction ds generalizing n with
  | nil => rfl
  | cons d ds ih =>
    simp only [List.map_cons, number, worth_char (h d List.mem_cons_self), List.foldl_cons]
    exact ih (fun e he => h e (List.mem_cons_of_mem _ he)) _

theorem number_decimal (n : Nat) : number 10 0 (decimal n) = n := by
  unfold decimal
  split
  · rename_i hn
    simp [number, worth_char, hn]
  · rw [number_map (by simpa using fun d hd => Nat.digits_lt_base (by omega) hd),
      List.foldl_reverse]
    have hdigits := Nat.ofDigits_digits 10 n
    rw [Nat.ofDigits_eq_foldr] at hdigits
    simpa [Nat.mul_comm, Nat.add_comm] using hdigits

theorem decimal_digits (n : Nat) : ∃ c text, decimal n = c :: text ∧
    ∀ d ∈ decimal n, ∃ m < 10, d = char m := by
  have hne : decimal n ≠ [] := by
    unfold decimal
    split
    · simp
    · simpa [Nat.digits_ne_nil_iff_ne_zero] using ‹n ≠ 0›
  obtain ⟨c, text, htext⟩ := List.exists_cons_of_ne_nil hne
  refine ⟨c, text, htext, ?_⟩
  unfold decimal
  split
  · intro d hd
    exact ⟨0, by omega, List.mem_singleton.1 hd⟩
  · intro d hd
    obtain ⟨m, hm, rfl⟩ := List.mem_map.1 hd
    exact ⟨m, Nat.digits_lt_base (by omega) (List.mem_reverse.1 hm), rfl⟩

theorem char_plain {d : Nat} (h : d < 10) :
    char d ≠ 0 ∧ is_space (char d) = false ∧ char d ≠ 0x2d ∧ char d ≠ 0x2b := by
  have hall : ∀ d < 10, char d ≠ 0 ∧ is_space (char d) = false ∧ char d ≠ 0x2d ∧ char d ≠ 0x2b := by
    decide
  exact hall d h

theorem c_str_print (n : Int) : c_str (print n) = print n := by
  obtain ⟨-, -, -, hall⟩ := decimal_digits n.natAbs
  have hplain : ∀ c ∈ decimal n.natAbs, c ≠ 0 := by
    intro c hc
    obtain ⟨m, hm, rfl⟩ := hall c hc
    exact (char_plain hm).1
  unfold c_str
  rw [List.takeWhile_eq_self_iff]
  suffices h : ∀ c ∈ print n, c ≠ 0 by simpa using h
  unfold print
  split
  · intro c hc
    rcases List.mem_cons.1 hc with rfl | hc
    · decide
    · exact hplain c hc
  · exact hplain

theorem parts_print (n : Int) : parts (print n) = (decide (n < 0), decimal n.natAbs) := by
  obtain ⟨c, text, htext, hall⟩ := decimal_digits n.natAbs
  obtain ⟨d, hd, rfl⟩ := hall c (by simp [htext])
  obtain ⟨-, hspace, hminus, hplus⟩ := char_plain hd
  rw [parts, c_str_print, print]
  by_cases hn : n < 0
  · have hblank : is_space 0x2d = false := by decide
    simp [hn, signed, hblank]
  · simp [hn, htext, hspace, signed, hminus, hplus]

theorem strtol_print {n : Int} (hl : -9223372036854775808 ≤ n) (hu : n ≤ 9223372036854775807) :
    strtol 10 (print n) = n := by
  simp only [strtol, parts_print, decide_eq_true_eq, if_neg (by decide : ¬ 10 = 16),
    number_decimal, clamp]
  split <;> omega

end numerals
