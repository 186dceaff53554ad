-- The tuning of the gossip of a node of the `kelips` overlay: when all the files are not sent
-- in a quarter of their timeout, a cleanup sends more of them at a time, or more often, or keeps
-- them longer.
import Mathlib.Algebra.Order.Ring.Nat
import Mathlib.Logic.Function.Iterate

namespace memo.overlay.kelips.tuning

/-- What a cleanup tunes of the configuration. The durations are in nanoseconds. -/
structure Configuration where
  files : Nat := 6
  interval : Nat := 2000000000
  file_timeout : Nat := 1200000000000
deriving DecidableEq

/-- What has no meaning: a division by zero, or an `int64_t` that overflows. -/
inductive Failure where
  | division_by_zero
  | overflow
deriving DecidableEq

/-- 400 milliseconds. -/
def shortest : Nat := 400000000

/-- The time to send all the files. -/
def sending (count : Nat) (c : Configuration) : Nat := count / (c.files / 2) * c.interval

/-- `time_send_all`, in a type of 64 bits without a sign. -/
def time_send_all (count : Nat) (c : Configuration) : Nat :=
  sending count c % 18446744073709551616

/-- The last part of `Node::cleanup`, with this number of files. -/
def cleanup (count : Nat) (c : Configuration) : Except Failure Configuration :=
  if c.files / 2 = 0 then .error .division_by_zero
  else if c.file_timeout / 4 ≤ time_send_all count c then
    if c.files < 20 then .ok { c with files := min 20 (c.files * 3 / 2) }
    else if shortest < c.interval then
      if 9223372036854775808 ≤ c.interval * 2 then .error .overflow
      else .ok { c with interval := max shortest (c.interval * 2 / 3) }
    else if 9223372036854775808 ≤ c.file_timeout * 3 then .error .overflow
    else .ok { c with file_timeout := c.file_timeout * 3 / 2 }
  else .ok c

/-- Calls of `Node::cleanup`, one after the other. -/
def cleanups (count : Nat) : Nat → Configuration → Except Failure Configuration
  | 0, c => .ok c
  | k + 1, c => do
    let c ← cleanup count c
    cleanups count k c

/-- The calls all return, and from one on they leave the configuration as it is, with which all the
files are sent in less than a quarter of their timeout. -/
def Converges (count : Nat) (c : Configuration) : Prop :=
  (∀ k, ∃ c', cleanups count k c = .ok c') ∧
    ∃ n c', (∀ k ≥ n, cleanups count k c = .ok c') ∧ sending count c' < c'.file_timeout / 4

/-! ## One call -/

/-- What a call needs: two files at least in a packet, a time that is not small because it wrapped,
and where the interval or the timeout changes, that its product fits and that the timeout grows. -/
structure Tunable (count : Nat) (c : Configuration) : Prop where
  files : 2 ≤ c.files
  wrapped : time_send_all count c < c.file_timeout / 4 → sending count c < c.file_timeout / 4
  interval : c.file_timeout / 4 ≤ time_send_all count c → 20 ≤ c.files → shortest < c.interval →
    c.interval * 2 < 9223372036854775808
  timeout : c.file_timeout / 4 ≤ time_send_all count c → 20 ≤ c.files → c.interval ≤ shortest →
    2 ≤ c.file_timeout ∧ c.file_timeout * 3 < 9223372036854775808

/-- What a configuration may still change. -/
def remaining (c : Configuration) : Nat :=
  (20 - c.files) + (c.interval - shortest) + (9223372036854775808 - c.file_timeout)

variable {c c' : Configuration} {count : Nat}

theorem cleanup_resting (hfiles : 2 ≤ c.files) (h : time_send_all count c < c.file_timeout / 4) :
    cleanup count c = .ok c := by
  unfold cleanup
  rw [if_neg (by omega), if_neg (by omega)]

theorem cleanup_progress (h : Tunable count c)
    (hlong : c.file_timeout / 4 ≤ time_send_all count c) :
    ∃ c', cleanup count c = .ok c' ∧ remaining c' < remaining c := by
  have hfiles := h.files
  have hshortest : shortest = 400000000 := rfl
  unfold cleanup remaining
  rw [if_neg (by omega), if_pos hlong]
  by_cases hmore : c.files < 20
  · rw [if_pos hmore]
    refine ⟨_, rfl, ?_⟩
    simp only
    omega
  rw [if_neg hmore]
  by_cases hoften : shortest < c.interval
  · have hfits := h.interval hlong (by omega) hoften
    rw [if_pos hoften, if_neg (by omega)]
    refine ⟨_, rfl, ?_⟩
    simp only
    omega
  · obtain ⟨hgrows, hfits⟩ := h.timeout hlong (by omega) (by omega)
    rw [if_neg hoften, if_neg (by omega)]
    refine ⟨_, rfl, ?_⟩
    simp only
    omega

/-! ## All the calls -/

theorem cleanups_succ (h : cleanup count c = .ok c') (k : Nat) :
    cleanups count (k + 1) c = cleanups count k c' := by
  simp [cleanups, h, bind, Except.bind]

theorem first_returns (h : ∀ k, ∃ c', cleanups count k c = .ok c') :
    ∃ c', cleanup count c = .ok c' := by
  obtain ⟨c', hc'⟩ := h 1
  cases hcall : cleanup count c with
  | error e => simp [cleanups, hcall, bind, Except.bind] at hc'
  | ok d => exact ⟨d, rfl⟩

theorem cleanups_resting (h : cleanup count c = .ok c) (k : Nat) :
    cleanups count k c = .ok c := by
  induction k with
  | zero => rfl
  | succ k ih => rw [cleanups_succ h, ih]

theorem Converges.before (h : cleanup count c = .ok c') (hnext : Converges count c') :
    Converges count c := by
  obtain ⟨hok, n, last, hlast, hshort⟩ := hnext
  refine ⟨?_, n + 1, last, ?_, hshort⟩
  · intro k
    cases k with
    | zero => exact ⟨c, rfl⟩
    | succ k =>
      rw [cleanups_succ h]
      exact hok k
  · intro k hk
    obtain ⟨k, rfl⟩ := Nat.exists_eq_add_of_le hk
    rw [show n + 1 + k = (n + k) + 1 by omega, cleanups_succ h]
    exact hlast _ (by omega)

theorem Converges.after (h : cleanup count c = .ok c') (hnow : Converges count c) :
    Converges count c' := by
  obtain ⟨hok, n, last, hlast, hshort⟩ := hnow
  refine ⟨fun k => ?_, n, last, fun k hk => ?_, hshort⟩
  · rw [← cleanups_succ h]
    exact hok (k + 1)
  · rw [← cleanups_succ h]
    exact hlast (k + 1) (by omega)

theorem Converges.tunable (h : Converges count c) :
    Tunable count c := by
  obtain ⟨hok, n, last, hlast, hshort⟩ := h
  obtain ⟨c', hcall⟩ := first_returns hok
  -- A call that changes nothing is the last one, and then the files are sent in time.
  have hsame : c' = c → sending count c < c.file_timeout / 4 := by
    rintro rfl
    have heq := (hlast n (by omega)).symm.trans (cleanups_resting hcall n)
    cases heq
    exact hshort
  unfold cleanup at hcall
  by_cases hfiles : c.files / 2 = 0
  · rw [if_pos hfiles] at hcall
    cases hcall
  rw [if_neg hfiles] at hcall
  by_cases hlong : c.file_timeout / 4 ≤ time_send_all count c
  · rw [if_pos hlong] at hcall
    have hwrapped : ¬ time_send_all count c < c.file_timeout / 4 := by omega
    by_cases hmore : c.files < 20
    · exact ⟨by omega, fun h => absurd h hwrapped, fun _ h => by omega, fun _ h => by omega⟩
    rw [if_neg hmore] at hcall
    by_cases hoften : shortest < c.interval
    · rw [if_pos hoften] at hcall
      by_cases hfits : 9223372036854775808 ≤ c.interval * 2
      · rw [if_pos hfits] at hcall
        cases hcall
      · exact ⟨by omega, fun h => absurd h hwrapped, fun _ _ _ => by omega,
          fun _ _ h => by omega⟩
    rw [if_neg hoften] at hcall
    by_cases hfits : 9223372036854775808 ≤ c.file_timeout * 3
    · rw [if_pos hfits] at hcall
      cases hcall
    rw [if_neg hfits] at hcall
    cases hcall
    refine ⟨by omega, fun h => absurd h hwrapped, fun _ _ h => absurd h hoften,
      fun _ _ _ => ⟨?_, by omega⟩⟩
    -- A timeout of one tick is left as it is.
    by_contra hstuck
    have hshort := hsame (by rw [show c.file_timeout * 3 / 2 = c.file_timeout by omega])
    omega
  · rw [if_neg hlong] at hcall
    cases hcall
    exact ⟨by omega, fun _ => hsame rfl, fun h => absurd h hlong, fun h => absurd h hlong⟩

/-! ## The first configuration -/

/-- The timeout, when it grows. -/
def longer (t : Nat) : Nat := t * 3 / 2

/-- The time to send all the files with as many of them in a packet as a cleanup can set. -/
def full (count : Nat) (c : Configuration) : Nat := count / (max 20 c.files / 2) * c.interval

/-- The shortest time to send all the files that a cleanup can set. -/
def least (count : Nat) (c : Configuration) : Nat :=
  count / (max 20 c.files / 2) * min c.interval shortest

/-- What the first configuration needs: two files in a packet, a timeout of two ticks, and room for
twice its interval, where this is to be shorter, and for three times the timeouts to come. -/
structure Tunes (count : Nat) (c : Configuration) : Prop where
  files : 2 ≤ c.files
  timeout : 2 ≤ c.file_timeout
  interval : c.file_timeout / 4 ≤ full count c → shortest < c.interval →
    c.interval * 2 < 9223372036854775808
  timeouts : ∀ k, longer^[k] c.file_timeout / 4 ≤ least count c →
    longer^[k] c.file_timeout * 3 < 9223372036854775808

theorem longer_ge (t k : Nat) : t ≤ longer^[k] t := by
  induction k generalizing t with
  | zero => exact le_rfl
  | succ k ih =>
    have hone : t ≤ longer t := by
      unfold longer
      omega
    rw [Function.iterate_succ_apply]
    exact hone.trans (ih _)

theorem packets_le {f g : Nat} (hf : 2 ≤ f) (h : f ≤ g) : count / (g / 2) ≤ count / (f / 2) :=
  Nat.div_le_div_left (by omega) (by omega)

theorem full_le_sending (hfiles : 2 ≤ c.files) : full count c ≤ sending count c :=
  Nat.mul_le_mul_right _ (packets_le hfiles (by omega))

theorem least_le_sending (hfiles : 2 ≤ c.files) : least count c ≤ sending count c :=
  Nat.mul_le_mul (packets_le hfiles (by omega)) (by omega)

/-- Once all the files are sent in time, nothing is left to ask. -/
theorem tunes_resting (hfiles : 2 ≤ c.files) (h : sending count c < c.file_timeout / 4) :
    Tunes count c := by
  have hfull : full count c ≤ sending count c := full_le_sending hfiles
  have hleast : least count c ≤ sending count c := least_le_sending hfiles
  refine ⟨hfiles, by omega, fun hlong => by omega, fun k hlong => ?_⟩
  have hgrown := longer_ge c.file_timeout k
  omega

theorem Tunes.tunable (h : Tunes count c) (hfits : sending count c < 18446744073709551616) :
    Tunable count c := by
  have htime : time_send_all count c = sending count c := Nat.mod_eq_of_lt hfits
  have hfull : 20 ≤ c.files → full count c = sending count c := by
    intro hmany
    simp only [full, sending, max_eq_right hmany]
  have hleast : 20 ≤ c.files → c.interval ≤ shortest → least count c = sending count c := by
    intro hmany hoften
    simp only [least, sending, max_eq_right hmany, min_eq_left hoften]
  refine ⟨h.files, by rw [htime]; exact id, fun hlong hmany => ?_, fun hlong hmany hoften => ?_⟩
  · exact h.interval (by rw [hfull hmany, ← htime]; exact hlong)
  · exact ⟨h.timeout, h.timeouts 0 (by rw [hleast hmany hoften, ← htime]; exact hlong)⟩

/-- What a call does when the files take too long. -/
theorem cleanup_cases (h : Tunable count c) (hlong : c.file_timeout / 4 ≤ time_send_all count c)
    (hcall : cleanup count c = .ok c') :
    (c.files < 20 ∧ c' = { c with files := min 20 (c.files * 3 / 2) }) ∨
    (20 ≤ c.files ∧ shortest < c.interval ∧
      c' = { c with interval := max shortest (c.interval * 2 / 3) }) ∨
    (20 ≤ c.files ∧ c.interval ≤ shortest ∧
      c' = { c with file_timeout := longer c.file_timeout }) := by
  have hfiles := h.files
  unfold cleanup at hcall
  rw [if_neg (by omega), if_pos hlong] at hcall
  by_cases hmore : c.files < 20
  · rw [if_pos hmore] at hcall
    exact .inl ⟨hmore, (Except.ok.inj hcall).symm⟩
  rw [if_neg hmore] at hcall
  by_cases hoften : shortest < c.interval
  · have hfits := h.interval hlong (by omega) hoften
    rw [if_pos hoften, if_neg (by omega)] at hcall
    exact .inr (.inl ⟨by omega, hoften, (Except.ok.inj hcall).symm⟩)
  · have hfits := h.timeout hlong (by omega) (by omega)
    rw [if_neg hoften, if_neg (by omega)] at hcall
    exact .inr (.inr ⟨by omega, by omega, (Except.ok.inj hcall).symm⟩)

/-- A call that changes something neither adds nor takes away from what is asked. -/
theorem tunes_step (h : Tunable count c) (hlong : c.file_timeout / 4 ≤ time_send_all count c)
    (hcall : cleanup count c = .ok c') (hfits : sending count c < 18446744073709551616) :
    (Tunes count c' ↔ Tunes count c) ∧ sending count c' ≤ sending count c := by
  have hfiles := h.files
  have htime : time_send_all count c = sending count c := Nat.mod_eq_of_lt hfits
  rcases cleanup_cases h hlong hcall with ⟨hmore, rfl⟩ | ⟨hmany, hoften, rfl⟩ |
    ⟨hmany, hoften, rfl⟩
  · have hmax : max 20 (min 20 (c.files * 3 / 2)) = max 20 c.files := by omega
    refine ⟨⟨fun ht => ?_, fun ht => ?_⟩, Nat.mul_le_mul_right _ (packets_le hfiles ?_)⟩
    · obtain ⟨-, htimeout, hinterval, htimeouts⟩ := ht
      simp only [full, least, hmax] at hinterval htimeouts
      exact ⟨hfiles, htimeout, hinterval, htimeouts⟩
    · refine ⟨?_, ht.timeout, ?_, ?_⟩
      · simp only
        omega
      · simpa only [full, hmax] using ht.interval
      · simpa only [least, hmax] using ht.timeouts
    · simp only
      omega
  · have hmin : min (max shortest (c.interval * 2 / 3)) shortest = min c.interval shortest := by
      omega
    have hless : max shortest (c.interval * 2 / 3) ≤ c.interval := by omega
    refine ⟨⟨fun ht => ?_, fun ht => ?_⟩, Nat.mul_le_mul_left _ hless⟩
    · refine ⟨hfiles, ht.timeout, fun _ _ => h.interval hlong hmany hoften, ?_⟩
      simpa only [least, hmin] using ht.timeouts
    · refine ⟨hfiles, ht.timeout, fun hfull hagain => ?_, ?_⟩
      · have hfits := h.interval hlong hmany hoften
        simp only
        omega
      · simpa only [least, hmin] using ht.timeouts
  · obtain ⟨hgrows, hroom⟩ := h.timeout hlong hmany hoften
    refine ⟨⟨fun ht => ?_, fun ht => ?_⟩, le_rfl⟩
    · refine ⟨hfiles, hgrows, fun _ hlong => by omega, fun k hk => ?_⟩
      cases k with
      | zero => exact hroom
      | succ k => exact ht.timeouts k hk
    · refine ⟨hfiles, ht.timeout.trans (longer_ge _ 1), fun _ hlong => ?_, fun k hk => ?_⟩
      · exact absurd hlong (by simpa using hoften)
      · exact ht.timeouts (k + 1) hk

theorem converges_iff_tunes (hfits : sending count c < 18446744073709551616) :
    Converges count c ↔ Tunes count c := by
  induction hn : remaining c using Nat.strong_induction_on generalizing c with
  | _ n ih =>
    subst hn
    -- Either side gives what the first call needs.
    suffices hmain : Tunable count c → (Converges count c ↔ Tunes count c) from
      ⟨fun h => (hmain h.tunable).mp h, fun h => (hmain (h.tunable hfits)).mpr h⟩
    intro h
    by_cases hlong : c.file_timeout / 4 ≤ time_send_all count c
    · obtain ⟨c', hcall, hless⟩ := cleanup_progress h hlong
      obtain ⟨htunes, hsending⟩ := tunes_step h hlong hcall hfits
      rw [← htunes, ← ih _ hless (hsending.trans_lt hfits) rfl]
      exact ⟨Converges.after hcall, Converges.before hcall⟩
    · have hshort := h.wrapped (by omega)
      have hresting := cleanup_resting h.files (by omega : time_send_all count c < _)
      exact iff_of_true ⟨fun k => ⟨c, cleanups_resting hresting k⟩, 0, c,
        fun k _ => cleanups_resting hresting k, hshort⟩ (tunes_resting h.files hshort)

/-- A timeout of one tick stays as it is, whatever overflows. -/
theorem Converges.timeout (h : Converges count c) : 2 ≤ c.file_timeout := by
  induction hn : remaining c using Nat.strong_induction_on generalizing c with
  | _ n ih =>
    subst hn
    by_cases hlong : c.file_timeout / 4 ≤ time_send_all count c
    · obtain ⟨c', hcall, hless⟩ := cleanup_progress h.tunable hlong
      have hnext := ih _ hless (h.after hcall) rfl
      rcases cleanup_cases h.tunable hlong hcall with ⟨-, rfl⟩ | ⟨-, -, rfl⟩ | ⟨hmany, hoften, -⟩
      · exact hnext
      · exact hnext
      · exact (h.tunable.timeout hlong hmany hoften).1
    · omega

/-- While nothing overflows, two files in a packet and two ticks are all that is asked. -/
theorem tunes_of_small (hinterval : c.interval < 4611686018427387904)
    (hleast : (least count c + 1) * 12 ≤ 9223372036854775808) :
    Tunes count c ↔ 2 ≤ c.files ∧ 2 ≤ c.file_timeout := by
  refine ⟨fun h => ⟨h.files, h.timeout⟩, fun ⟨hfiles, htimeout⟩ => ?_⟩
  exact ⟨hfiles, htimeout, fun _ _ => by omega, fun k hk => by omega⟩

/-- The tuning converges, where the time to send all the files fits in 64 bits, when the first
configuration has what it needs, and never with one file in a packet or a timeout of one tick. -/
theorem tuning_converges_iff (count : Nat) (c : Configuration) :
    (sending count c < 18446744073709551616 → (Converges count c ↔ Tunes count c)) ∧
      (Converges count c → 2 ≤ c.files ∧ 2 ≤ c.file_timeout) :=
  ⟨converges_iff_tunes, fun h => ⟨h.tunable.files, h.timeout⟩⟩

theorem a_thousand_files_converge : Converges 1000 {} :=
  ((tuning_converges_iff 1000 {}).1 (by decide)).mpr
    ((tunes_of_small (by decide) (by decide)).mpr ⟨by decide, by decide⟩)

/-- With one file in a packet, the first call divides by zero. -/
theorem one_file_divides_by_zero :
    cleanup 1000 { files := 1 } = .error .division_by_zero ∧
      ¬ ∀ (count : Nat) (c : Configuration), 1 ≤ c.files → 0 < c.interval → 0 < c.file_timeout →
        Converges count c := by
  refine ⟨rfl, fun h => ?_⟩
  obtain ⟨c', hc'⟩ := first_returns
    (h 1000 { files := 1 } (by decide) (by decide) (by decide)).1
  cases hc'

end memo.overlay.kelips.tuning
