-- Addresses as text. An address is printed as the digits of its bytes, and what is parsed
-- is taken by two characters, each of them given to `strtol`, which never refuses.
import Memo.KelipsState
import Memo.Numerals

open codec

/-! ## Numbers in base 16 -/

namespace elle.format.hexadecimal

open numerals (value is_xdigit lower)

/-- `0x`. -/
def mark : Bytes := [0x30, 0x78]

/-- `chars`. -/
def char (n : Nat) : UInt8 := if n < 10 then UInt8.ofNat (0x30 + n) else UInt8.ofNat (0x57 + n)

def encode (buffer : Bytes) : Bytes :=
  buffer.flatMap fun c => [char (c.toNat / 16), char (c.toNat % 16)]

theorem digit_value {c : UInt8} (h : is_xdigit c) :
    ∃ n < 16, value c = some n ∧ char n = lower c := by
  have hall : ∀ n < 256, is_xdigit (UInt8.ofNat n) →
      ∃ m < 16, value (UInt8.ofNat n) = some m ∧ char m = lower (UInt8.ofNat n) := by
    decide +kernel
  have hc := hall c.toNat c.toNat_lt
  rw [UInt8.ofNat_toNat] at hc
  exact hc h

end elle.format.hexadecimal

/-! ## Addresses -/

namespace memo.model

open elle.format.hexadecimal
open numerals (value is_xdigit lower strtol strtol_digits)
open memo.overlay.kelips (Address Value)

inductive Error where
  | invalid_address (repr : Bytes)
deriving DecidableEq

/-- `isprint`, or the end of a line. -/
def printable (c : UInt8) : Bool := (0x20 ≤ c.toNat && c.toNat ≤ 0x7e) || c = 0x0a

/-- `operator <<` of a buffer on a stream that is not fixed. The bytes are printed when nine in ten
of them can be. -/
def put (hex : Bool) (buffer : Bytes) : Bytes :=
  if hex || buffer.isEmpty || (buffer.countP printable) * 10 < 9 * buffer.length then
    mark ++ encode buffer
  else buffer

/-- The first bytes, without the zeros at their end, but for the first one. -/
def shorten : Bytes → Bytes
  | [] => []
  | c :: buffer => c :: (buffer.reverse.dropWhile (· = 0)).reverse

/-- `operator <<` of an address, on a stream with these flags. -/
def print (fixed hex : Bool) (k : Address) : Bytes :=
  let flag := k.value.get (Fin.last 31)
  if fixed then
    mark ++ encode (shorten (k.value.toList.take 4)) ++ if flag = 0 then [] else encode [flag]
  else put hex k.value.toList

/-- What follows the mark, when there is one. -/
def unmarked (repr : Bytes) : Bytes := if repr.take 2 = mark then repr.drop 2 else repr

/-- The loop of `Address::from_string`: two characters for each byte, and none that is left. -/
def bytes (repr : Bytes) : (n : Nat) → Bytes → Except Error (List.Vector UInt8 n)
  | 0, [] => .ok .nil
  | n + 1, a :: b :: text => do
    let v ← bytes repr n text
    pure (.cons (UInt8.ofNat (strtol 16 [a, b, 0] % 256).toNat) v)
  | _, _ => .error (.invalid_address repr)

/-- `Address::from_string`. -/
def from_string (repr : Bytes) : Except Error Address := do
  let v ← bytes repr 32 (unmarked repr)
  pure (.of_value v)

/-! ## What is parsed -/

theorem bytes_ok_iff {repr text : Bytes} {n : Nat} :
    (∃ v, bytes repr n text = .ok v) ↔ text.length = 2 * n := by
  fun_induction bytes repr n text with
  | case1 => simp
  | case2 n a b text ih =>
    simp only [List.length_cons]
    constructor
    · rintro ⟨v, hv⟩
      cases hrest : bytes repr n text with
      | error e =>
        rw [hrest] at hv
        cases hv
      | ok w =>
        have hlength := ih.1 ⟨w, hrest⟩
        omega
    · intro hlength
      obtain ⟨w, hw⟩ := ih.2 (by omega)
      rw [hw]
      exact ⟨_, rfl⟩
  | case3 n text hnil hcons =>
    simp only [reduceCtorEq, exists_false, false_iff]
    intro hlength
    match n, text with
    | 0, [] => exact hnil rfl rfl
    | 0, _ :: _ => simp at hlength
    | n + 1, [] => simp at hlength
    | n + 1, [_] => simp at hlength; omega
    | n + 1, a :: b :: text => exact hcons n a b text rfl rfl

theorem bytes_digits {repr text : Bytes} {n : Nat} {v : List.Vector UInt8 n}
    (h : bytes repr n text = .ok v) (hd : ∀ d ∈ text, is_xdigit d) :
    encode v.toList = text.map lower := by
  fun_induction bytes repr n text with
  | case1 =>
    cases h
    rfl
  | case2 n a b text ih =>
    cases hrest : bytes repr n text with
    | error e =>
      rw [hrest] at h
      cases h
    | ok w =>
      rw [hrest] at h
      cases h
      obtain ⟨x, hx, hax, hcx⟩ := digit_value (hd a (by simp))
      obtain ⟨y, hy, hby, hcy⟩ := digit_value (hd b (by simp))
      have hbyte : (UInt8.ofNat (strtol 16 [a, b, 0] % 256).toNat).toNat = x * 16 + y := by
        rw [strtol_digits hax hby, UInt8.toNat_ofNat']
        omega
      have htail := ih hrest fun d hmem => hd d (by simp [hmem])
      simp only [encode, List.Vector.toList_cons, List.flatMap_cons, hbyte, List.map_cons,
        List.cons_append, List.nil_append] at htail ⊢
      rw [show (x * 16 + y) / 16 = x by omega, show (x * 16 + y) % 16 = y by omega, hcx, hcy]
      exact congrArg _ (congrArg _ htail)
  | case3 => cases h

theorem from_string_eq_ok {repr : Bytes} {k : Address} (h : from_string repr = .ok k) :
    ∃ v, bytes repr 32 (unmarked repr) = .ok v ∧ k = .of_value v := by
  unfold from_string at h
  cases hbytes : bytes repr 32 (unmarked repr) with
  | error e =>
    rw [hbytes] at h
    cases h
  | ok v =>
    rw [hbytes] at h
    cases h
    exact ⟨v, rfl, rfl⟩

theorem from_string_ok_iff {repr : Bytes} :
    (∃ k, from_string repr = .ok k) ↔ (unmarked repr).length = 64 := by
  constructor
  · rintro ⟨k, hk⟩
    obtain ⟨v, hv, -⟩ := from_string_eq_ok hk
    exact bytes_ok_iff.1 ⟨v, hv⟩
  · intro hlength
    obtain ⟨v, hv⟩ := (bytes_ok_iff (n := 32)).2 hlength
    exact ⟨.of_value v, by rw [from_string, hv]; rfl⟩

theorem from_string_prints {repr : Bytes} {k : Address} (h : from_string repr = .ok k)
    (hd : ∀ d ∈ unmarked repr, is_xdigit d) :
    print false true k = mark ++ (unmarked repr).map lower := by
  obtain ⟨v, hv, rfl⟩ := from_string_eq_ok h
  exact congrArg (mark ++ ·) (bytes_digits hv hd)

/-- A string that is the digits, with a mark or not. -/
def Spells (repr digits : Bytes) : Prop :=
  digits.length = 64 ∧ (∀ d ∈ digits, is_xdigit d) ∧ (repr = digits ∨ repr = mark ++ digits)

theorem Spells.unmarked {repr digits : Bytes} (h : Spells repr digits) :
    unmarked repr = digits := by
  obtain ⟨-, hd, rfl | rfl⟩ := h
  · -- The second character of the mark is no digit.
    unfold model.unmarked
    rw [if_neg]
    intro hmark
    have hx : (0x78 : UInt8) ∈ repr.take 2 := by simp [hmark, mark]
    exact absurd (hd _ (List.mem_of_mem_take hx)) (by decide)
  · simp [model.unmarked, mark]

theorem spells_unmarked {repr : Bytes} (hlength : (unmarked repr).length = 64)
    (hd : ∀ d ∈ unmarked repr, is_xdigit d) : Spells repr (unmarked repr) := by
  refine ⟨hlength, hd, ?_⟩
  by_cases hmark : repr.take 2 = mark
  · right
    have hsplit := List.take_append_drop 2 repr
    rw [hmark] at hsplit
    simp [unmarked, hmark, hsplit]
  · left
    simp [unmarked, hmark]

/-- A string is parsed when it spells an address, and it is that address; others are refused. -/
def Exact (repr : Bytes) : Prop :=
  ((∃ k, from_string repr = .ok k) ↔ ∃ digits, Spells repr digits) ∧
    ∀ k digits, from_string repr = .ok k → Spells repr digits →
      print false true k = mark ++ digits.map lower

/-- Strings are parsed as they should, unless they have the length of an address and a character
that is no digit. -/
theorem addresses_are_parsed_exactly_iff (repr : Bytes) :
    Exact repr ↔ ((unmarked repr).length = 64 → ∀ d ∈ unmarked repr, is_xdigit d) := by
  have hok : (∃ k, from_string repr = .ok k) ↔ (unmarked repr).length = 64 := from_string_ok_iff
  constructor
  · rintro ⟨haccepts, -⟩ hlength
    obtain ⟨digits, hspells⟩ := haccepts.1 (hok.2 hlength)
    rw [hspells.unmarked]
    exact hspells.2.1
  · intro hdigits
    refine ⟨hok.trans ⟨fun hlength => ⟨_, spells_unmarked hlength (hdigits hlength)⟩, ?_⟩, ?_⟩
    · rintro ⟨digits, hspells⟩
      rw [hspells.unmarked]
      exact hspells.1
    · intro k digits hk hspells
      have hprint := from_string_prints hk (by rw [hspells.unmarked]; exact hspells.2.1)
      rwa [hspells.unmarked] at hprint

/-- Sixty-four characters that are no digits are the null address. -/
theorem sixty_four_letters_are_parsed :
    from_string (List.replicate 64 0x7a) = .ok .null ∧ ¬ ∀ repr, Exact repr := by
  have hparsed : (from_string (List.replicate 64 0x7a)).toOption = some Address.null := by
    decide +kernel
  have hok : from_string (List.replicate 64 0x7a) = .ok .null := by
    cases hread : from_string (List.replicate 64 0x7a) with
    | error e =>
      rw [hread] at hparsed
      cases hparsed
    | ok k =>
      rw [hread] at hparsed
      cases hparsed
      rfl
  refine ⟨hok, fun h => ?_⟩
  obtain ⟨digits, hspells⟩ := (h (List.replicate 64 0x7a)).1.1 ⟨_, hok⟩
  have hz : is_xdigit 0x7a := by
    apply hspells.2.1
    rw [← hspells.unmarked]
    decide
  exact absurd hz (by decide)

end memo.model
