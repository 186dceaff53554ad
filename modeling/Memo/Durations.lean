-- Durations as text. The writer scales the count and the unit in opposite directions, until the
-- unit is one that has a name, and the reader takes the count with `atoi`.
import Mathlib.Tactic.Positivity
import Memo.Binary
import Memo.Numerals

open codec numerals
open elle.binary (int64)

namespace elle.chrono

inductive Failure where
  | endless
  | unsafe_ratio (num denom : Int)
  | denom_is_not_one (denom : Int)
  | invalid_duration (repr : Bytes)
  | invalid_duration_unit (unit : Bytes)
  | no_number (repr : Bytes)
  | out_of_range (repr : Bytes)
deriving DecidableEq

/-! ## The writer -/

/-- The `while` loop of the writer: the ticks, the denominator and the order. The fuel is for the
divisions of the denominator. -/
def scale : Nat → Int → Int → Nat → Option (Int × Int × Nat)
  | 0, _, _, _ => none
  | fuel + 1, ticks, denom, order =>
    if denom % 1000 = 0 then
      if ticks % 1000 = 0 then scale fuel (ticks / 1000) (denom / 1000) order
      else scale fuel ticks (denom / 1000) (order + 1)
    else some (ticks, denom, order)

/-- A number of seconds, and its order. -/
def seconds (ticks : Int) : Int × Nat :=
  if ticks % 60 = 0 then
    if ticks / 60 % 60 = 0 then
      if ticks / 60 / 60 % 24 = 0 then (ticks / 60 / 60 / 24, 0) else (ticks / 60 / 60, 1)
    else (ticks / 60, 2)
  else (ticks, 3)

/-- `orders`: d, h, min, s, ms, us, ns, ps and fs. -/
def orders : List Bytes :=
  [[0x64], [0x68], [0x6d, 0x69, 0x6e], [0x73], [0x6d, 0x73], [0x75, 0x73], [0x6e, 0x73],
    [0x70, 0x73], [0x66, 0x73]]

/-- `json::SerializerOut::_serialize_time_duration`. The denominator that 1000 is divided by is
multiplied by 1, and is not 1 after it. -/
def _serialize_time_duration (ticks_ num_ denom_ : Int) : Except Failure Bytes := do
  let (ticks, denom, order) ←
    match scale 7 ticks_ denom_ 3 with
    | some scaled => pure scaled
    | none => throw .endless
  let (num, denom, order) ←
    if denom ≠ 1 then
      if 1000 % denom = 0 then pure (int64 (num_ * (1000 / denom)), denom * 1, order + 1)
      else throw (.unsafe_ratio num_ denom_)
    else pure (num_, denom, order)
  if denom ≠ 1 then throw (.denom_is_not_one denom)
  if 9 ≤ order then throw (.unsafe_ratio num_ denom_)
  let ticks := int64 (ticks * num)
  let (ticks, order) := if order = 3 then seconds ticks else (ticks, order)
  pure (print ticks ++ orders.getD order [])

/-! ## The reader -/

/-- The units and their ratios. -/
def units : List (Bytes × Int × Int) :=
  [([0x64], 60 * 60 * 24, 1), ([0x68], 60 * 60, 1), ([0x6d, 0x69, 0x6e], 60, 1), ([0x73], 1, 1),
    ([0x6d, 0x73], 1, 1000), ([0x75, 0x73], 1, 1000000), ([0x6e, 0x73], 1, 1000000000),
    ([0x70, 0x73], 1, 1000000000000), ([0x66, 0x73], 1, 1000000000000000)]

/-- A number that is made an `int`. -/
def int32 (n : Int) : Int := n.bmod (2 ^ 32)

/-- `std::atoi`: an `int`, of what `strtol` gives. -/
def atoi (text : Bytes) : Int := int32 (strtol 10 text)

/-- `std::stoi`. -/
def stoi (text : Bytes) : Except Failure Int :=
  if (parts text).2.head?.bind (worth 10) = none then .error (.no_number text)
  else if int32 (strtol 10 text) ≠ strtol 10 text then .error (.out_of_range text)
  else .ok (strtol 10 text)

/-- A character of `-0123456789`. -/
def counts (c : UInt8) : Bool := c = 0x2d || (0x30 ≤ c.toNat && c.toNat ≤ 0x39)

/-- `duration_parse`: the ticks, the numerator and the denominator. -/
def duration_parse (repr : Bytes) : Except Failure (Int × Int × Int) :=
  let count := repr.takeWhile counts
  let unit := repr.dropWhile counts
  if unit = [] then do
    let ticks ← stoi repr
    pure (ticks, 1, 1)
  else if count = [] then .error (.invalid_duration repr)
  else
    match units.lookup unit with
    | some (num, denom) => .ok (atoi count, num, denom)
    | none => .error (.invalid_duration_unit unit)

/-! ## What is written -/

/-- How many times a count can be divided by 1000, up to `q`. -/
def thousands (q : Nat) (count : Int) : Nat :=
  Nat.findGreatest (fun k => (1000 : Int) ^ k ∣ count) q

theorem thousands_le (q : Nat) (count : Int) : thousands q count ≤ q := Nat.findGreatest_le q

theorem thousands_dvd (q : Nat) (count : Int) : (1000 : Int) ^ thousands q count ∣ count :=
  Nat.findGreatest_spec (P := fun k => (1000 : Int) ^ k ∣ count) (Nat.zero_le q) (one_dvd count)

theorem thousands_of_not_dvd {count : Int} (h : ¬ 1000 ∣ count) (q : Nat) :
    thousands q count = 0 := by
  by_contra hk
  obtain ⟨k, hk⟩ := Nat.exists_eq_succ_of_ne_zero hk
  have hdvd := thousands_dvd q count
  rw [hk, pow_succ] at hdvd
  exact h (dvd_of_mul_left_dvd hdvd)

theorem thousands_of_dvd (q : Nat) (c : Int) :
    thousands (q + 1) (1000 * c) = thousands q c + 1 := by
  have hpow : ∀ k : Nat, (1000 : Int) ^ (k + 1) ∣ 1000 * c ↔ 1000 ^ k ∣ c := by
    intro k
    rw [pow_succ', mul_dvd_mul_iff_left (by decide)]
  unfold thousands
  rw [Nat.findGreatest_eq_iff]
  refine ⟨Nat.succ_le_succ (thousands_le q c), fun _ => (hpow _).2 (thousands_dvd q c), ?_⟩
  intro k hlt hle hdvd
  obtain ⟨k, rfl⟩ := Nat.exists_eq_succ_of_ne_zero (by omega : k ≠ 0)
  exact Nat.findGreatest_is_greatest (Nat.lt_of_succ_lt_succ hlt) (Nat.le_of_succ_le_succ hle)
    ((hpow k).1 hdvd)

theorem scale_eq {q fuel : Nat} (hq : q < fuel) (ticks : Int) {d : Int} (hd : d % 1000 ≠ 0)
    (order : Nat) :
    scale fuel ticks (1000 ^ q * d) order =
      some (ticks / 1000 ^ thousands q ticks, d, order + (q - thousands q ticks)) := by
  obtain ⟨fuel, rfl⟩ := Nat.exists_eq_succ_of_ne_zero (by omega : fuel ≠ 0)
  induction q generalizing fuel ticks order with
  | zero => simp [scale, hd, thousands]
  | succ q ih =>
    have hdenom : (1000 : Int) ^ (q + 1) * d = 1000 * (1000 ^ q * d) := by ring
    obtain ⟨fuel, rfl⟩ := Nat.exists_eq_succ_of_ne_zero (by omega : fuel ≠ 0)
    rw [hdenom, scale, if_pos (Int.mul_emod_right 1000 _),
      Int.mul_ediv_cancel_left _ (by decide : (1000 : Int) ≠ 0)]
    by_cases hdvd : (1000 : Int) ∣ ticks
    · obtain ⟨c, rfl⟩ := hdvd
      rw [if_pos (Int.mul_emod_right 1000 c),
        Int.mul_ediv_cancel_left _ (by decide : (1000 : Int) ≠ 0), ih c order fuel (by omega),
        thousands_of_dvd, pow_succ', Int.mul_ediv_mul_of_pos _ _ (by decide)]
      simp
    · rw [if_neg (fun h => hdvd (Int.dvd_of_emod_eq_zero h)), ih ticks (order + 1) fuel (by omega),
        thousands_of_not_dvd hdvd, thousands_of_not_dvd hdvd]
      simp
      omega

/-- The largest unit from the second on that is whole in a number of seconds. -/
def whole (n : Int) : Int :=
  if 86400 ∣ n then 86400 else if 3600 ∣ n then 3600 else if 60 ∣ n then 60 else 1

theorem seconds_spec (ticks : Int) : ∃ n o, seconds ticks = (n, o) ∧ n * whole ticks = ticks ∧
    units.lookup (orders.getD o []) = some (whole ticks, 1) := by
  unfold seconds whole
  split_ifs
  all_goals first
    | exact ⟨_, _, rfl, by omega, by decide⟩
    | omega

/-- How many times the smallest period is in the unit that is written. -/
def unit (q : Nat) (count num : Int) : Int :=
  let k := thousands q count
  1000 ^ k * if k = q then whole (count / 1000 ^ k * num) else 1

theorem whole_pos (n : Int) : 0 < whole n := by
  unfold whole
  split_ifs <;> omega

theorem unit_pos (q : Nat) (count num : Int) : 0 < unit q count num := by
  apply mul_pos (by positivity)
  split
  · exact whole_pos _
  · decide

theorem lookup_order {j : Nat} (hj : j < 6) :
    units.lookup (orders.getD (3 + j) []) = some (1, 1000 ^ j) := by
  have hall : ∀ j < 6, units.lookup (orders.getD (3 + j) []) = some (1, 1000 ^ j) := by decide
  exact hall j hj

theorem int64_of_fits {n m : Int} (hm : 0 < m) (hl : -2 ^ 63 ≤ m * n) (hu : m * n < 2 ^ 63) :
    int64 n = n := by
  apply elle.binary.int64_of_range <;> nlinarith

theorem written {q : Nat} (hq : q < 6) {count num : Int} (hl : -2 ^ 63 ≤ count * num)
    (hu : count * num < 2 ^ 63) :
    ∃ n o num' denom', _serialize_time_duration count num (1000 ^ q) =
        .ok (print n ++ orders.getD o []) ∧
      units.lookup (orders.getD o []) = some (num', denom') ∧ 0 < num' ∧ 0 < denom' ∧
      n * unit q count num = count * num ∧ n * num' * 1000 ^ q = count * num * denom' := by
  have hscale : scale 7 count (1000 ^ q * 1) 3 = _ := scale_eq (by omega) count (by decide) 3
  have hle := thousands_le q count
  obtain ⟨c, hc⟩ := thousands_dvd q count
  generalize hk : thousands q count = k at hscale hle hc
  have hpos : (0 : Int) < 1000 ^ k := by positivity
  have hdiv : count / 1000 ^ k = c := by
    rw [hc, Int.mul_ediv_cancel_left _ hpos.ne']
  rw [mul_one, hdiv] at hscale
  have hfits : int64 (c * num) = c * num :=
    int64_of_fits hpos (by rwa [← mul_assoc, ← hc]) (by rwa [← mul_assoc, ← hc])
  by_cases hkq : k = q
  · obtain ⟨n, o, hseconds, hn, hlookup⟩ := seconds_spec (c * num)
    refine ⟨n, o, whole (c * num), 1, ?_, hlookup, whole_pos _, by decide, ?_, ?_⟩
    · simp [_serialize_time_duration, hscale, hkq, hfits, hseconds, bind, Except.bind, pure,
        Except.pure]
    · rw [unit, hk, if_pos hkq, hdiv, mul_left_comm, hn, hc, mul_assoc]
    · rw [hn, hc, hkq]
      ring
  · obtain ⟨j, rfl⟩ := Nat.exists_eq_add_of_le hle
    have hj : 3 + (k + j - k) = 3 + j := by omega
    refine ⟨c * num, 3 + j, 1, 1000 ^ j, ?_, lookup_order (by omega), by decide, by positivity,
      ?_, ?_⟩
    · rw [hj] at hscale
      have horder : ¬ 9 ≤ 3 + j := by omega
      have hj : j ≠ 0 := by omega
      simp [_serialize_time_duration, hscale, hfits, horder, hj, bind, Except.bind, pure,
        Except.pure]
    · rw [unit, hk, if_neg hkq, hc]
      ring
    · rw [hc, pow_add]
      ring

theorem not_written {q : Nat} (hq : q < 6) (count num : Int) {d : Int} (hd : d % 1000 ≠ 0)
    (hd' : d ≠ 1) : ∃ e, _serialize_time_duration count num (1000 ^ q * d) = .error e := by
  have hscale : scale 7 count (1000 ^ q * d) 3 = _ := scale_eq (by omega) count hd 3
  by_cases hdvd : 1000 % d = 0
  · refine ⟨.denom_is_not_one d, ?_⟩
    simp [_serialize_time_duration, hscale, hd', hdvd, bind, Except.bind, pure, Except.pure, throw,
      throwThe, MonadExceptOf.throw]
  · refine ⟨.unsafe_ratio num (1000 ^ q * d), ?_⟩
    simp [_serialize_time_duration, hscale, hd', hdvd, bind, Except.bind, pure, Except.pure, throw,
      throwThe, MonadExceptOf.throw]

/-! ## What is read -/

theorem counts_print (n : Int) : ∀ c ∈ print n, counts c := by
  obtain ⟨-, -, -, hall⟩ := decimal_digits n.natAbs
  have hchar : ∀ d < 10, counts (char d) := by decide
  have hdecimal : ∀ c ∈ decimal n.natAbs, counts c := by
    intro c hc
    obtain ⟨d, hd, rfl⟩ := hall c hc
    exact hchar d hd
  unfold print
  split
  · intro c hc
    rcases List.mem_cons.1 hc with rfl | hc
    · decide
    · exact hdecimal c hc
  · exact hdecimal

theorem print_ne_nil (n : Int) : print n ≠ [] := by
  obtain ⟨c, text, htext, -⟩ := decimal_digits n.natAbs
  unfold print
  split <;> simp [htext]

theorem duration_parse_print (n : Int) {o : Nat} {num denom : Int}
    (h : units.lookup (orders.getD o []) = some (num, denom)) :
    duration_parse (print n ++ orders.getD o []) = .ok (atoi (print n), num, denom) := by
  have hunit : (orders.getD o []).takeWhile counts = [] ∧
      (orders.getD o []).dropWhile counts = orders.getD o [] ∧ orders.getD o [] ≠ [] := by
    have hall : ∀ u ∈ orders, u.takeWhile counts = [] ∧ u.dropWhile counts = u ∧ u ≠ [] := by
      decide
    rw [List.getD_eq_getElem?_getD] at h ⊢
    cases ho : orders[o]? with
    | some u => exact hall u (List.mem_of_getElem? ho)
    | none =>
      have hnone : units.lookup [] = none := by decide
      rw [ho, Option.getD_none, hnone] at h
      cases h
  obtain ⟨htake, hdrop, hne⟩ := hunit
  have hcounts := counts_print n
  simp only [duration_parse, List.takeWhile_append_of_pos hcounts,
    List.dropWhile_append_of_pos hcounts, htake, hdrop, hne, h, List.append_nil, print_ne_nil,
    if_false]

/-! ## Durations keep their length -/

/-- A duration is written, and what is written is read as a duration of the same length. -/
def Kept (count num denom : Int) : Prop :=
  ∃ text ticks num' denom', _serialize_time_duration count num denom = .ok text ∧
    duration_parse text = .ok (ticks, num', denom') ∧
    (ticks * num' : ℚ) / denom' = count * num / denom

theorem int32_eq_iff (n : Int) : int32 n = n ↔ -2 ^ 31 ≤ n ∧ n < 2 ^ 31 := by
  unfold int32 Int.bmod
  simp only
  split <;> omega

theorem kept_of_power {q : Nat} (hq : q < 6) {count num : Int} (hl : -2 ^ 63 ≤ count * num)
    (hu : count * num < 2 ^ 63) :
    Kept count num (1000 ^ q) ↔
      -2 ^ 31 * unit q count num ≤ count * num ∧ count * num < 2 ^ 31 * unit q count num := by
  obtain ⟨n, o, num', denom', hwrite, hlookup, hnum, hdenom, hn, hlength⟩ := written hq hl hu
  have hpos := unit_pos q count num
  have hn64 : strtol 10 (print n) = n := by
    apply strtol_print <;> nlinarith
  have hread := duration_parse_print n hlookup
  rw [atoi, hn64] at hread
  have hsame : Kept count num (1000 ^ q) ↔ int32 n = n := by
    have hlengthQ : (n * num' * 1000 ^ q : ℚ) = count * num * denom' := by exact_mod_cast hlength
    have hnumQ : (num' : ℚ) ≠ 0 := by exact_mod_cast hnum.ne'
    have hdenomQ : (denom' : ℚ) ≠ 0 := by exact_mod_cast hdenom.ne'
    have hratio : (count * num : ℚ) / 1000 ^ q = n * num' / denom' := by
      rw [div_eq_div_iff (by positivity) hdenomQ, hlengthQ]
    constructor
    · rintro ⟨text, ticks, num'', denom'', htext, hparse, heq⟩
      rw [hwrite] at htext
      cases htext
      rw [hread] at hparse
      cases hparse
      push_cast at heq
      rw [hratio, div_left_inj' hdenomQ, mul_left_inj' hnumQ] at heq
      exact_mod_cast heq
    · intro h
      refine ⟨_, _, _, _, hwrite, hread, ?_⟩
      rw [h]
      push_cast
      exact hratio.symm
  rw [hsame, int32_eq_iff, ← hn, mul_le_mul_iff_left₀ hpos, mul_lt_mul_iff_left₀ hpos]

/-- Durations keep their length when the denominator is a power of 1000, and the count is an `int`
in the unit that is written. -/
theorem durations_keep_their_length_iff (count : Int) {num : Int} {e : Nat} (he : e ≤ 15)
    (hl : -2 ^ 63 ≤ count * num) (hu : count * num < 2 ^ 63) :
    Kept count num (10 ^ e) ↔
      e % 3 = 0 ∧ -2 ^ 31 * unit (e / 3) count num ≤ count * num ∧
        count * num < 2 ^ 31 * unit (e / 3) count num := by
  have hpow : (10 : Int) ^ e = 1000 ^ (e / 3) * 10 ^ (e % 3) := by
    conv_lhs => rw [← Nat.div_add_mod e 3, pow_add, pow_mul]
    norm_num
  by_cases hthree : e % 3 = 0
  · rw [hpow, hthree, pow_zero, mul_one, kept_of_power (by omega) hl hu]
    simp
  · refine iff_of_false ?_ (fun h => hthree h.1)
    rintro ⟨text, ticks, num', denom', htext, -⟩
    have hd : (10 : Int) ^ (e % 3) % 1000 ≠ 0 ∧ (10 : Int) ^ (e % 3) ≠ 1 := by
      have hcases : e % 3 = 1 ∨ e % 3 = 2 := by omega
      rcases hcases with h | h <;> rw [h] <;> decide
    obtain ⟨f, hf⟩ := not_written (by omega : e / 3 < 6) count num hd.1 hd.2
    rw [hpow, hf] at htext
    cases htext

theorem a_day_keeps_its_length : Kept 24 3600 (10 ^ 0) :=
  (durations_keep_their_length_iff 24 (by decide) (by decide) (by decide)).2 (by decide)

/-- A tenth of a second is not written, and 2^31 nanoseconds come back as -2^31. -/
theorem a_tenth_of_a_second_is_not_written :
    _serialize_time_duration 1 1 10 = .error (.denom_is_not_one 10) ∧
      (∃ text, _serialize_time_duration 2147483648 1 1000000000 = .ok text ∧
        duration_parse text = .ok (-2147483648, 1, 1000000000)) ∧
      ¬ ∀ (count num : Int) (e : Nat), e ≤ 15 →
        num = 1 ∨ num = 60 ∨ num = 3600 ∨ num = 86400 → -2 ^ 63 ≤ count * num →
          count * num < 2 ^ 63 → Kept count num (10 ^ e) := by
  have hwritten : _serialize_time_duration 1 1 10 = .error (.denom_is_not_one 10) := rfl
  refine ⟨hwritten, ⟨_, rfl, rfl⟩, fun h => ?_⟩
  obtain ⟨text, ticks, num', denom', htext, -⟩ :=
    h 1 1 1 (by decide) (.inl rfl) (by decide) (by decide)
  rw [show (10 : Int) ^ 1 = 10 from rfl, hwritten] at htext
  cases htext

end elle.chrono
