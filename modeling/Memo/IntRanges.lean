-- `elle::IntRanges`: sets of integers as ranges in ascending order, and `complete`, which adds a
-- range and returns what was missing of it.
import Mathlib.Algebra.Group.Int.Defs
import Mathlib.Algebra.Group.Nat.Defs
import Mathlib.Data.List.Pairwise
import Mathlib.Data.Prod.Lex
import Mathlib.Order.Bounds.Basic
import Memo.OrderedSets
import Memo.Runs

open ordered_sets runs

namespace elle

/-- The result of an addition of ints. -/
def IntRange.wrap (n : Int) : Int := n.bmod (2 ^ 32)

structure IntRange where
  _start : Int
  _end : Int
deriving DecidableEq

namespace IntRange

/-- The constructor, which takes a size. -/
def new (start size : Int) : IntRange := ⟨start, wrap (start + size)⟩

theorem toLex_injective : Function.Injective fun r : IntRange => toLex (r._start, r._end) := by
  intro r r' h
  have hpair : (r._start, r._end) = (r'._start, r'._end) := toLex.injective h
  cases r
  cases r'
  simpa using hpair

/-- `operator <`: the starts are compared first. -/
instance : LinearOrder IntRange := LinearOrder.lift' _ toLex_injective

theorem lt_iff {r r' : IntRange} :
    r < r' ↔ r._start < r'._start ∨ r._start = r'._start ∧ r._end < r'._end :=
  Prod.Lex.toLex_lt_toLex

def empty (r : IntRange) : Bool := r._end ≤ r._start

def contains (r : IntRange) (pos : Int) : Bool := r._start ≤ pos && pos < r._end

/-- A range that covers this one without touching its ends does not overlap it. -/
def overlaps (r other : IntRange) : Bool := r.contains other._start || r.contains other._end

theorem contains_iff {r : IntRange} {x : Int} : r.contains x ↔ r._start ≤ x ∧ x < r._end := by
  simp [contains]

theorem overlaps_iff {r other : IntRange} : r.overlaps other ↔
    (r._start ≤ other._start ∧ other._start < r._end) ∨
      (r._start ≤ other._end ∧ other._end < r._end) := by
  simp [overlaps, contains]

end IntRange

/-- `IntRanges`. -/
abbrev IntRanges : Type := OrderedSet IntRange

namespace IntRanges

variable {s s' res : IntRanges} {r t range current : IntRange} {previous : Option IntRange}
variable {rest : List IntRange} {a b x p : Int}

def contains (s : IntRanges) (pos : Int) : Bool := s.elements.any (·.contains pos)

def next_free (s : IntRanges) (position : Int) : Int :=
  match s.elements.find? (position ≤ ·._end) with
  | some chunk => if position < chunk._start then position else chunk._end
  | none => position

/-- `complete` after its loop. -/
def finish (s res : IntRanges) (previous : Option IntRange) (range : IntRange) :
    IntRanges × IntRanges :=
  let res := res.emplace range
  match previous with
  | some previous =>
    if previous._end = range._start then
      ((s.erase previous).emplace { range with _start := previous._start }, res)
    else (s.emplace range, res)
  | none => (s.emplace range, res)

/-- A range that begins before `current` and ends in it: `current` begins where it does, or where
the previous range does. -/
def extend (s : IntRanges) (previous : Option IntRange) (range current : IntRange) :
    IntRanges × IntRange :=
  let s := s.erase current
  let current := { current with _start := range._start }
  match previous with
  | some previous =>
    if previous._end = current._start then
      let current := { current with _start := previous._start }
      ((s.erase previous).emplace current, current)
    else (s.emplace current, current)
  | none => (s.emplace current, current)

/-- The loop of `complete`. -/
def complete_loop : List IntRange → IntRanges → IntRanges → Option IntRange → IntRange →
    IntRanges × IntRanges
  | [], s, res, previous, range => finish s res previous range
  | current :: rest, s, res, previous, range =>
    if range._end < current._start then finish s res previous range
    else if current.overlaps range then
      let (s, res, current) :=
        if range._start < current._start then
          -- the second argument of the constructor is a size
          let res := res.emplace (IntRange.new range._start current._start)
          let (s, current) := extend s previous range current
          (s, res, current)
        else (s, res, current)
      let range := { range with _start := current._end }
      if range.empty then (s, res) else complete_loop rest s res (some current) range
    else complete_loop rest s res (some current) range

/-- The ranges after `complete`, and what it returns. -/
def complete (s : IntRanges) (range : IntRange) : IntRanges × IntRanges :=
  complete_loop s.elements s OrderedSet.empty none range

/-- `operator +=`. -/
def add (s : IntRanges) (range : IntRange) : IntRanges := (s.complete range).1

example : complete ⟨[⟨0, 2⟩, ⟨4, 6⟩], by decide⟩ ⟨6, 8⟩ =
    (⟨[⟨0, 2⟩, ⟨4, 8⟩], by decide⟩, ⟨[⟨6, 8⟩], by decide⟩) := by decide

/-! ## Ranges that do not touch -/

/-- Disjoint ranges in order, with a gap between two of them. -/
structure Separated (s : IntRanges) : Prop where
  proper : ∀ t ∈ s, t._start < t._end
  apart : s.elements.Pairwise (·._end < ·._start)

/-- The integers of the ranges. -/
def Covers (s : IntRanges) (x : Int) : Prop := ∃ t ∈ s, t._start ≤ x ∧ x < t._end

theorem contains_iff : s.contains x ↔ s.Covers x := by
  simp [contains, Covers, IntRange.contains_iff, OrderedSet.mem_def]

theorem Separated.mk' (hp : ∀ t ∈ s, t._start < t._end)
    (h : ∀ t ∈ s, ∀ t' ∈ s, t ≠ t' → t._end < t'._start ∨ t'._end < t._start) : Separated s := by
  refine ⟨hp, OrderedSet.pairwise_of_total h fun t ht t' ht' hlt => IntRange.lt_iff.2 ?_⟩
  have := hp t ht
  have := hp t' ht'
  omega

theorem Separated.cases (h : Separated s) {t t' : IntRange} (ht : t ∈ s) (ht' : t' ∈ s) :
    t = t' ∨ t._end < t'._start ∨ t'._end < t._start := by
  by_cases heq : t = t'
  · exact Or.inl heq
  · let either : IntRange → IntRange → Prop := fun t t' => t._end < t'._start ∨ t'._end < t._start
    have hsymm : Std.Symm either := ⟨fun _ _ => Or.symm⟩
    have hapart : s.elements.Pairwise either := h.apart.imp Or.inl
    exact Or.inr (hapart.forall ht ht' heq)

/-- The first integer from `p` on that is not covered. -/
abbrev FirstFree (s : IntRanges) (p x : Int) : Prop := IsLeast {x | p ≤ x ∧ ¬ s.Covers x} x

theorem Separated.next_free_spec (h : Separated s) (p : Int) : s.FirstFree p (s.next_free p) := by
  have hfree : s.elements.find? (p ≤ ·._end) = none → ¬ s.Covers p := by
    rintro hnone ⟨t, ht, -, hlt⟩
    have := List.find?_eq_none.1 hnone t ht
    simp only [decide_eq_true_eq] at this
    omega
  unfold next_free
  cases hfind : s.elements.find? (p ≤ ·._end) with
  | none => exact ⟨⟨le_rfl, hfree hfind⟩, fun x hx => hx.1⟩
  | some chunk =>
    have hchunk : chunk ∈ s := List.mem_of_find?_eq_some hfind
    have hend : p ≤ chunk._end := by simpa using List.find?_some hfind
    -- the ranges before this one end before `p`
    have hfirst : ∀ t ∈ s, p ≤ t._end → t = chunk ∨ chunk._end < t._start := by
      intro t ht hle
      rcases h.cases ht hchunk with heq | hlt | hgt
      · exact Or.inl heq
      · obtain ⟨-, before, after, hsplit, hbefore⟩ := List.find?_eq_some_iff_append.1 hfind
        have hp := h.proper t ht
        rcases List.mem_append.1 (hsplit ▸ OrderedSet.mem_def.1 ht) with hm | hm
        · have := hbefore t hm
          simp only [Bool.not_eq_true', decide_eq_false_iff_not] at this
          omega
        · rcases List.mem_cons.1 hm with rfl | hm
          · exact Or.inl rfl
          · have hpair := (List.pairwise_append.1 (hsplit ▸ h.apart)).2.1
            exact Or.inr ((List.pairwise_cons.1 hpair).1 t hm)
      · exact Or.inr hgt
    dsimp only
    split_ifs with hlt
    · refine ⟨⟨le_rfl, ?_⟩, fun x hx => hx.1⟩
      rintro ⟨t, ht, hle, hlt'⟩
      rcases hfirst t ht hlt'.le with rfl | hgt <;> omega
    · refine ⟨⟨hend, ?_⟩, fun x hx => ?_⟩
      · rintro ⟨t, ht, hle, hlt'⟩
        rcases hfirst t ht (by omega) with rfl | hgt <;> omega
      · by_contra hx'
        exact hx.2 ⟨chunk, hchunk, by have := hx.1; omega, by omega⟩

theorem Separated.not_covered_to (h : Separated s) (ht : t ∈ s) (hp : p < t._start)
    (hc : ∀ x, p ≤ x → x < a → s.Covers x) : a < t._start := by
  by_contra hle
  obtain ⟨q, hq, hstart, hend⟩ := hc (t._start - 1) (by omega) (by omega)
  have hpos := h.proper t ht
  rcases h.cases hq ht with rfl | hlt | hgt <;> omega

/-! ## A range that is added -/

/-- The new range, and the one that ends where it begins, as one. -/
def join (s : IntRanges) (previous : Option IntRange) (range : IntRange) : IntRanges :=
  match previous with
  | some previous =>
    if previous._end = range._start then
      (s.erase previous).emplace { range with _start := previous._start }
    else s.emplace range
  | none => s.emplace range

theorem finish_eq : finish s res previous range = (s.join previous range, res.emplace range) := by
  unfold finish join
  cases previous with
  | none => rfl
  | some previous =>
    dsimp only
    split_ifs <;> rfl

theorem extend_eq : (extend s previous range current).1 =
      join (s.erase current) previous ⟨range._start, current._end⟩ ∧
    (extend s previous range current).2._end = current._end := by
  unfold extend join
  cases previous with
  | none => exact ⟨rfl, rfl⟩
  | some previous =>
    dsimp only
    split_ifs <;> exact ⟨rfl, rfl⟩

theorem covers_emplace : Covers (s.emplace r) x ↔ s.Covers x ∨ r._start ≤ x ∧ x < r._end := by
  unfold Covers
  constructor
  · rintro ⟨t, ht, hx⟩
    rcases OrderedSet.mem_emplace.1 ht with rfl | ht
    · exact Or.inr hx
    · exact Or.inl ⟨t, ht, hx⟩
  · rintro (⟨t, ht, hx⟩ | hx)
    · exact ⟨t, OrderedSet.mem_emplace.2 (Or.inr ht), hx⟩
    · exact ⟨r, OrderedSet.mem_emplace.2 (Or.inl rfl), hx⟩

theorem covers_erase (ht : t ∈ s) :
    s.Covers x ↔ Covers (s.erase t) x ∨ t._start ≤ x ∧ x < t._end := by
  unfold Covers
  constructor
  · rintro ⟨q, hq, hx⟩
    by_cases heq : q = t
    · exact Or.inr (heq ▸ hx)
    · exact Or.inl ⟨q, OrderedSet.mem_erase.2 ⟨hq, heq⟩, hx⟩
  · rintro (⟨q, hq, hx⟩ | hx)
    · exact ⟨q, (OrderedSet.mem_erase.1 hq).1, hx⟩
    · exact ⟨t, ht, hx⟩

theorem Separated.erase (h : Separated s) : Separated (s.erase t) :=
  ⟨fun q hq => h.proper q (OrderedSet.mem_erase.1 hq).1, h.apart.filter _⟩

theorem Separated.emplace (h : Separated s) (hr : r._start < r._end)
    (haway : ∀ t ∈ s, t._end < r._start ∨ r._end < t._start) : Separated (s.emplace r) := by
  refine Separated.mk' (fun t ht => ?_) fun t ht t' ht' hne => ?_
  · rcases OrderedSet.mem_emplace.1 ht with rfl | ht
    · exact hr
    · exact h.proper t ht
  · rcases OrderedSet.mem_emplace.1 ht with heq | ht
    · rcases OrderedSet.mem_emplace.1 ht' with heq' | ht'
      · exact absurd (heq.trans heq'.symm) hne
      · exact heq ▸ (haway t' ht').symm
    · rcases OrderedSet.mem_emplace.1 ht' with heq' | ht'
      · exact heq' ▸ haway t ht
      · exact (h.cases ht ht').resolve_left hne

theorem join_spec (previous : Option IntRange) (h : Separated s) (hr : r._start < r._end)
    (haway : ∀ t ∈ s, t._end ≤ r._start ∨ r._end < t._start)
    (hprevious : ∀ t, previous = some t → t ∈ s)
    (htouch : ∀ t ∈ s, t._end = r._start → previous = some t) :
    Separated (s.join previous r) ∧
      ∀ x, (s.join previous r).Covers x ↔ s.Covers x ∨ r._start ≤ x ∧ x < r._end := by
  have hapart : (∀ t ∈ s, t._end ≠ r._start) → Separated (s.emplace r) ∧
      ∀ x, Covers (s.emplace r) x ↔ s.Covers x ∨ r._start ≤ x ∧ x < r._end := by
    intro hne
    refine ⟨h.emplace hr fun t ht => ?_, fun x => covers_emplace⟩
    have := hne t ht
    rcases haway t ht with hle | hlt <;> omega
  unfold join
  cases previous with
  | none => exact hapart fun t ht heq => by cases htouch t ht heq
  | some p =>
    have hp := hprevious p rfl
    have hproper := h.proper p hp
    dsimp only
    split_ifs with heq
    · refine ⟨h.erase.emplace (by dsimp only; omega) fun t ht => ?_, fun x => ?_⟩
      · obtain ⟨ht, hne⟩ := OrderedSet.mem_erase.1 ht
        have haway := haway t ht
        rcases h.cases ht hp with rfl | hlt | hgt
        · exact absurd rfl hne
        · exact Or.inl hlt
        · dsimp only
          have := h.proper t ht
          omega
      · rw [covers_emplace, covers_erase hp, or_assoc]
        dsimp only
        refine or_congr_right ?_
        omega
    · refine hapart fun t ht hend => heq ?_
      cases htouch t ht hend
      exact hend

/-! ## The loop -/

/-- The loop is past these ranges, and what is left of the new one begins at `a`. -/
structure Passed (s : IntRanges) (r : IntRange) (before rest : List IntRange) (a : Int) : Prop where
  split : s.elements = before ++ rest
  ended : ∀ t ∈ before, t._end ≤ a
  started : r._start ≤ a
  left : a < r._end
  covered : ∀ x, r._start ≤ x → x < a → s.Covers x

variable {before : List IntRange}

theorem Passed.next (h : Passed s r before (current :: rest) a) (hend : current._end = b)
    (ha : a ≤ b) (hb : b < r._end) (hc : ∀ x, a ≤ x → x < b → s.Covers x) :
    Passed s r (before ++ [current]) rest b := by
  refine ⟨by simpa using h.split, fun t ht => ?_, h.started.trans ha, hb, fun x hx hx' => ?_⟩
  · rcases List.mem_append.1 ht with ht | ht
    · exact (h.ended t ht).trans ha
    · rw [List.mem_singleton.1 ht, hend]
  · rcases lt_or_ge x a with hlt | hle
    · exact h.covered x hx hlt
    · exact hc x hle hx'

theorem loop_passes (hs : Separated s) (h : Passed s r before rest a) :
    (complete_loop rest s OrderedSet.empty before.getLast? ⟨a, r._end⟩ = (s, OrderedSet.empty) ∧
      ∀ x, r._start ≤ x → x < r._end → s.Covers x) ∨
    ∃ before' rest' a', Passed s r before' rest' a' ∧ (∀ t ∈ rest', a' < t._start) ∧
      complete_loop rest s OrderedSet.empty before.getLast? ⟨a, r._end⟩ =
        complete_loop rest' s OrderedSet.empty before'.getLast? ⟨a', r._end⟩ := by
  induction rest generalizing before a with
  | nil => exact Or.inr ⟨before, [], a, h, by simp, rfl⟩
  | cons current rest ih =>
    have hmem : current ∈ s := by
      rw [OrderedSet.mem_def, h.split]
      exact List.mem_append_right _ List.mem_cons_self
    have hproper := hs.proper current hmem
    have hleft := h.left
    rcases lt_or_ge a current._start with hlt | hle
    · -- the ranges from here on begin after `a`
      refine Or.inr ⟨before, current :: rest, a, h, fun t ht => ?_, rfl⟩
      have hpair := (List.pairwise_append.1 (h.split ▸ hs.apart)).2.1
      rcases List.mem_cons.1 ht with rfl | ht
      · exact hlt
      · have := (List.pairwise_cons.1 hpair).1 t ht
        omega
    · have hpast : ¬ r._end < current._start := by omega
      rcases lt_or_ge a current._end with hin | hout
      · -- `a` is in `current`, and what is left begins where it ends
        have hover : current.overlaps ⟨a, r._end⟩ = true :=
          IntRange.overlaps_iff.2 (Or.inl ⟨hle, hin⟩)
        have hnot : ¬ a < current._start := by omega
        have hstep :
            complete_loop (current :: rest) s OrderedSet.empty before.getLast? ⟨a, r._end⟩ =
            if r._end ≤ current._end then (s, OrderedSet.empty)
            else complete_loop rest s OrderedSet.empty (before ++ [current]).getLast?
              ⟨current._end, r._end⟩ := by
          simp [complete_loop, hpast, hover, hnot, IntRange.empty]
        rw [hstep]
        split_ifs with hempty
        · refine Or.inl ⟨rfl, fun x hx hx' => ?_⟩
          rcases lt_or_ge x a with hlt | hge
          · exact h.covered x hx hlt
          · exact ⟨current, hmem, by omega, by omega⟩
        · exact ih (h.next rfl hin.le (by omega) fun x hx hx' => ⟨current, hmem, by omega, hx'⟩)
      · -- `current` ends before `a`, or there
        have hover : current.overlaps ⟨a, r._end⟩ = false := by
          rw [Bool.eq_false_iff, ne_eq, IntRange.overlaps_iff]
          dsimp only
          omega
        have hstep :
            complete_loop (current :: rest) s OrderedSet.empty before.getLast? ⟨a, r._end⟩ =
            complete_loop rest s OrderedSet.empty (before ++ [current]).getLast? ⟨a, r._end⟩ := by
          simp [complete_loop, hpast, hover]
        rw [hstep]
        refine ih ⟨by simpa using h.split, fun t ht => ?_, h.started, h.left, h.covered⟩
        rcases List.mem_append.1 ht with ht | ht
        · exact h.ended t ht
        · rw [List.mem_singleton.1 ht]
          exact hout

theorem Passed.mem (h : Passed s r before rest a) (ht : t ∈ before ++ rest) : t ∈ s := by
  rw [OrderedSet.mem_def, h.split]
  exact ht

theorem Passed.cases (h : Passed s r before rest a) (ht : t ∈ s) : t ∈ before ∨ t ∈ rest :=
  List.mem_append.1 (h.split ▸ OrderedSet.mem_def.1 ht)

theorem Passed.first_free (h : Passed s r before rest a) (hrest : ∀ t ∈ rest, a < t._start) :
    s.FirstFree r._start a := by
  refine ⟨⟨h.started, ?_⟩, fun x hx => ?_⟩
  · rintro ⟨t, ht, hle, hlt⟩
    rcases h.cases ht with ht | ht
    · have := h.ended t ht
      omega
    · have := hrest t ht
      omega
  · by_contra hlt
    exact hx.2 (h.covered x hx.1 (by omega))

theorem Passed.touches (hs : Separated s) (h : Passed s r before rest a)
    (hrest : ∀ t ∈ rest, a < t._start) (ht : t ∈ s) (hend : t._end = a) :
    before.getLast? = some t := by
  have hproper := hs.proper t ht
  have hbefore : t ∈ before := (h.cases ht).resolve_right fun hm => by
    have := hrest t hm
    omega
  rcases List.eq_nil_or_concat before with rfl | ⟨init, last, rfl⟩
  · cases hbefore
  · rw [List.concat_eq_append] at hbefore h ⊢
    rw [List.getLast?_concat]
    rcases List.mem_append.1 hbefore with hin | hin
    · have hlast : last ∈ init ++ [last] := List.mem_append_right _ List.mem_cons_self
      have hpair := (List.pairwise_append.1 (List.pairwise_append.1 (h.split ▸ hs.apart)).1).2.2
      have := hpair t hin last List.mem_cons_self
      have := h.ended last hlast
      have := hs.proper last (h.mem (List.mem_append_left _ hlast))
      omega
    · rw [List.mem_singleton.1 hin]

theorem complete_loop_extends (ha : a < current._start) (hle : current._start ≤ b)
    (hlt : b < current._end) : complete_loop (current :: rest) s res previous ⟨a, b⟩ =
      (join (s.erase current) previous ⟨a, current._end⟩,
        res.emplace (IntRange.new a current._start)) := by
  obtain ⟨hranges, hend⟩ : (extend s previous ⟨a, b⟩ current).1 = _ ∧ _ := extend_eq
  have hover : current.overlaps ⟨a, b⟩ = true := IntRange.overlaps_iff.2 (Or.inr ⟨hle, hlt⟩)
  have hpast : ¬ b < current._start := by omega
  simp [complete_loop, hpast, hover, ha, hend, IntRange.empty, hlt.le, hranges]

theorem complete_loop_skips (previous : Option IntRange) (ha : a < current._start)
    (hle : current._start ≤ b) (hend : current._end ≤ b) :
    complete_loop (current :: rest) s res previous ⟨a, b⟩ =
      complete_loop rest s res (some current) ⟨a, b⟩ := by
  have hover : current.overlaps ⟨a, b⟩ = false := by
    rw [Bool.eq_false_iff, ne_eq, IntRange.overlaps_iff]
    dsimp only
    omega
  have hpast : ¬ b < current._start := by omega
  simp [complete_loop, hpast, hover]

theorem complete_loop_stops (h : ∀ t ∈ rest, b < t._start) :
    complete_loop rest s res previous ⟨a, b⟩ = (join s previous ⟨a, b⟩, res.emplace ⟨a, b⟩) := by
  cases rest with
  | nil => rw [complete_loop, finish_eq]
  | cons current rest =>
    rw [complete_loop, if_pos (h current List.mem_cons_self), finish_eq]

theorem complete_loop_beside (previous : Option IntRange)
    (hrest : ∀ t ∈ rest, a < t._start ∧ t._start < t._end)
    (hp : ∀ q, previous = some q → q._end ≠ a) :
    ∃ z, b ≤ z ∧ ⟨a, z⟩ ∈ (complete_loop rest s res previous ⟨a, b⟩).1 ∧
      ∀ q ∈ s, q ∉ rest → q ∈ (complete_loop rest s res previous ⟨a, b⟩).1 := by
  have hjoin : ∀ s z, join s previous ⟨a, z⟩ = s.emplace ⟨a, z⟩ := by
    intro s z
    unfold join
    cases previous with
    | none => rfl
    | some q => exact if_neg (hp q rfl)
  induction rest generalizing previous with
  | nil =>
    rw [complete_loop_stops (by simp), hjoin]
    exact ⟨b, le_rfl, OrderedSet.mem_emplace.2 (Or.inl rfl), fun q hq _ =>
      OrderedSet.mem_emplace.2 (Or.inr hq)⟩
  | cons current rest ih =>
    obtain ⟨ha, hproper⟩ := hrest current List.mem_cons_self
    rcases lt_or_ge b current._start with hstop | hle
    · rw [complete_loop, if_pos hstop, finish_eq, hjoin]
      exact ⟨b, le_rfl, OrderedSet.mem_emplace.2 (Or.inl rfl), fun q hq _ =>
        OrderedSet.mem_emplace.2 (Or.inr hq)⟩
    · rcases lt_or_ge b current._end with hlt | hend
      · rw [complete_loop_extends ha hle hlt, hjoin]
        refine ⟨current._end, hlt.le, OrderedSet.mem_emplace.2 (Or.inl rfl), fun q hq hnot =>
          OrderedSet.mem_emplace.2 (Or.inr (OrderedSet.mem_erase.2 ⟨hq, ?_⟩))⟩
        rintro rfl
        exact hnot List.mem_cons_self
      · rw [complete_loop_skips _ ha hle hend]
        have hcurrent : ∀ q, some current = some q → q._end ≠ a := by
          rintro q heq
          obtain rfl := Option.some.inj heq
          omega
        obtain ⟨z, hz, hnew, hold⟩ := ih (some current)
          (fun t ht => hrest t (List.mem_cons_of_mem _ ht)) hcurrent
          fun s z => if_neg (hcurrent current rfl)
        exact ⟨z, hz, hnew, fun q hq hnot => hold q hq fun hm => hnot (List.mem_cons_of_mem _ hm)⟩

/-! ## One call -/

/-- What `complete` has to do. -/
structure Completed (s : IntRanges) (r : IntRange) (out : IntRanges × IntRanges) : Prop where
  covered : ∀ x, Covers out.1 x ↔ s.Covers x ∨ r.contains x
  separated : Separated out.1
  missing : ∀ x, Covers out.2 x ↔ r.contains x ∧ ¬ s.Covers x
  least : ∀ p, FirstFree out.1 p (next_free out.1 p)

/-- A range that begins after the new one, and not after its end, ends after it; and then the
first integer of the new one that is free is 0. -/
def Room (s : IntRanges) (r : IntRange) : Prop :=
  ∀ t ∈ s, r._start < t._start → t._start ≤ r._end →
    r._end < t._end ∧ s.FirstFree r._start 0

/-- The bounds of the ranges are ints. -/
def Fits (s : IntRanges) : Prop := ∀ x, s.Covers x → -2 ^ 31 ≤ x ∧ x + 1 < 2 ^ 31

/-- The same of a range that is added. -/
structure Valid (r : IntRange) : Prop where
  nonempty : r._start < r._end
  low : -2 ^ 31 ≤ r._start
  high : r._end < 2 ^ 31

theorem covers_single {z : Int} : Covers (OrderedSet.empty.emplace ⟨a, z⟩) x ↔ a ≤ x ∧ x < z := by
  rw [covers_emplace]
  refine or_iff_right ?_
  rintro ⟨t, ht, -⟩
  exact OrderedSet.not_mem_empty ht

theorem wrap_eq_iff {z : Int} (ha : -2 ^ 31 ≤ a ∧ a < 2 ^ 31) (hz : -2 ^ 31 ≤ z ∧ z < 2 ^ 31) :
    IntRange.wrap (a + z) = z ↔ a = 0 := by
  unfold IntRange.wrap
  rw [Int.bmod_def]
  split <;> omega

theorem missing_iff (hfree : s.FirstFree r._start a) (hb : b ≤ r._end)
    (hgap : ∀ x, a ≤ x → x < b → ¬ s.Covers x) (hrest : ∀ x, b ≤ x → x < r._end → s.Covers x) :
    r.contains x ∧ ¬ s.Covers x ↔ a ≤ x ∧ x < b := by
  rw [IntRange.contains_iff]
  constructor
  · rintro ⟨⟨hx, hx'⟩, hnot⟩
    refine ⟨hfree.2 ⟨hx, hnot⟩, ?_⟩
    by_contra hge
    exact hnot (hrest x (by omega) hx')
  · rintro ⟨hx, hx'⟩
    have := hfree.1.1
    exact ⟨⟨by omega, by omega⟩, hgap x hx hx'⟩

theorem completed_of_stop (hs : Separated s) (h : Passed s r before rest a)
    (hrest : ∀ t ∈ rest, a < t._start) (hstop : ∀ t ∈ rest, r._end < t._start) :
    Completed s r (complete_loop rest s OrderedSet.empty before.getLast? ⟨a, r._end⟩) := by
  have hfree := h.first_free hrest
  have hleft := h.left
  obtain ⟨hsep, hcover⟩ := join_spec (r := ⟨a, r._end⟩) _ hs h.left
    (fun t ht => (h.cases ht).imp (h.ended t) (hstop t))
    (fun t ht => h.mem (List.mem_append_left _ (List.mem_of_getLast? ht)))
    fun t ht => h.touches hs hrest ht
  rw [complete_loop_stops hstop]
  refine ⟨fun x => ?_, hsep, fun x => ?_, hsep.next_free_spec⟩
  · rw [hcover, IntRange.contains_iff]
    dsimp only
    constructor
    · rintro (hx | hx)
      · exact Or.inl hx
      · exact Or.inr ⟨h.started.trans hx.1, hx.2⟩
    · rintro (hx | hx)
      · exact Or.inl hx
      · rcases lt_or_ge x a with hlt | hge
        · exact Or.inl (h.covered x hx.1 hlt)
        · exact Or.inr ⟨hge, hx.2⟩
  · rw [covers_single, missing_iff hfree le_rfl (fun x hx hx' => ?_) fun x hx hx' => by omega]
    rintro ⟨t, ht, hle, hlt⟩
    rcases h.cases ht with hm | hm
    · have := h.ended t hm
      omega
    · have := hstop t hm
      omega

theorem completed_iff_of_extend (hs : Separated s) (hfit : Fits s) (hr : Valid r)
    (h : Passed s r before (current :: rest) a) (hrest : ∀ t ∈ current :: rest, a < t._start)
    (hle : current._start ≤ r._end) (hlt : r._end < current._end) :
    Completed s r
      (complete_loop (current :: rest) s OrderedSet.empty before.getLast? ⟨a, r._end⟩) ↔ a = 0 := by
  have hfree := h.first_free hrest
  have hmem : current ∈ s := h.mem (List.mem_append_right _ List.mem_cons_self)
  have ha := hrest current List.mem_cons_self
  have hproper := hs.proper current hmem
  have hleft := h.left
  have hstarted := h.started
  obtain ⟨hlow, hhigh⟩ := hr.low, hr.high
  have hnext : ∀ t ∈ s, t ≠ current → t ∈ before ∨ current._end < t._start := by
    intro t ht hne
    refine (h.cases ht).imp_right fun hm => ?_
    have hpair := (List.pairwise_append.1 (h.split ▸ hs.apart)).2.1
    exact (List.pairwise_cons.1 hpair).1 t ((List.mem_cons.1 hm).resolve_left hne)
  have hbefore : ∀ t, before.getLast? = some t → t ∈ before := fun t => List.mem_of_getLast?
  obtain ⟨hsep, hcover⟩ := join_spec (r := ⟨a, current._end⟩) before.getLast?
    (hs.erase (t := current)) (ha.trans hproper)
    (fun t ht => by
      obtain ⟨ht, hne⟩ := OrderedSet.mem_erase.1 ht
      exact (hnext t ht hne).imp_left (h.ended t))
    (fun t ht => OrderedSet.mem_erase.2 ⟨h.mem (List.mem_append_left _ (hbefore t ht)), by
      rintro rfl
      have := h.ended t (hbefore t ht)
      omega⟩)
    fun t ht => h.touches hs hrest (OrderedSet.mem_erase.1 ht).1
  -- what is missing ends where `current` begins
  have hmissing : ∀ x, r.contains x ∧ ¬ s.Covers x ↔ a ≤ x ∧ x < current._start := by
    intro x
    refine missing_iff hfree hle (fun x hx hx' => ?_) fun x hx hx' => ⟨current, hmem, hx, by omega⟩
    rintro ⟨t, ht, hle', hlt'⟩
    by_cases hne : t = current
    · rw [hne] at hle'
      omega
    · rcases hnext t ht hne with hm | hgt
      · have := h.ended t hm
        omega
      · omega
  have hwrap : IntRange.wrap (a + current._start) = current._start ↔ a = 0 := by
    have hcurrent := hfit current._start ⟨current, hmem, le_rfl, hproper⟩
    exact wrap_eq_iff ⟨by omega, by omega⟩ ⟨hcurrent.1, by omega⟩
  rw [complete_loop_extends ha hle hlt, ← hwrap]
  constructor
  · intro hc
    have hsame : ∀ x, a ≤ x ∧ x < IntRange.wrap (a + current._start) ↔ a ≤ x ∧ x < current._start :=
      fun x => covers_single.symm.trans ((hc.missing x).trans (hmissing x))
    have hlow := hsame (current._start - 1)
    have hhigh := hsame current._start
    omega
  · intro heq
    refine ⟨fun x => ?_, hsep, fun x => ?_, hsep.next_free_spec⟩
    · rw [hcover, covers_erase hmem, IntRange.contains_iff, or_assoc]
      dsimp only
      by_cases hx : Covers (s.erase current) x
      · exact iff_of_true (Or.inl hx) (Or.inl hx)
      · have hcovered := h.covered x
        rw [covers_erase hmem] at hcovered
        constructor
        · rintro (hx' | hx')
          · exact absurd hx' hx
          · refine Or.inr ?_
            omega
        · rintro (hx' | hx' | hx')
          · exact absurd hx' hx
          · exact Or.inr ⟨by omega, hx'.2⟩
          · refine Or.inr ⟨?_, by omega⟩
            by_contra hlt'
            have := (hcovered hx'.1 (by omega)).resolve_left hx
            omega
    · rw [IntRange.new, heq, covers_single, hmissing]

theorem not_completed_of_skip (hs : Separated s) (h : Passed s r before (current :: rest) a)
    (hrest : ∀ t ∈ current :: rest, a < t._start) (hend : current._end ≤ r._end) :
    ¬ Completed s r
      (complete_loop (current :: rest) s OrderedSet.empty before.getLast? ⟨a, r._end⟩) := by
  intro hc
  have hmem : ∀ t ∈ current :: rest, t ∈ s := fun t ht => h.mem (List.mem_append_right _ ht)
  have ha := hrest current List.mem_cons_self
  have hproper := hs.proper current (hmem current List.mem_cons_self)
  have hnot : current ∉ rest := by
    have hpair := (List.pairwise_append.1 (h.split ▸ s.ascending)).2.1
    exact fun hm => ((List.pairwise_cons.1 hpair).1 current hm).ne rfl
  obtain ⟨z, hz, hnew, hold⟩ := complete_loop_beside (s := s) (b := r._end) (some current)
    (fun t ht => ⟨hrest t (List.mem_cons_of_mem _ ht),
      hs.proper t (hmem t (List.mem_cons_of_mem _ ht))⟩)
    (fun q heq => by
      obtain rfl := Option.some.inj heq
      omega)
  rw [← complete_loop_skips before.getLast? ha (hproper.le.trans hend) hend] at hnew hold
  have hboth := hc.separated.cases (hold current (hmem current List.mem_cons_self) hnot) hnew
  rcases hboth with heq | hlt | hgt
  · rw [heq] at ha
    exact lt_irrefl _ ha
  · dsimp only at hlt
    omega
  · dsimp only at hgt
    omega

theorem completed_iff (hs : Separated s) (hfit : Fits s) (hr : Valid r) :
    Completed s r (s.complete r) ↔ Room s r := by
  have hstart : Passed s r [] s.elements r._start :=
    ⟨rfl, by simp, le_rfl, hr.nonempty, fun x hx hx' => by omega⟩
  rcases loop_passes hs hstart with ⟨hout, hall⟩ | ⟨before, rest, a, hpassed, hrest, hout⟩
  · -- the range is covered already
    have hcomplete : s.complete r = (s, OrderedSet.empty) := hout
    have hempty : ∀ x, ¬ Covers OrderedSet.empty x := by
      rintro x ⟨t, ht, -⟩
      exact OrderedSet.not_mem_empty ht
    rw [hcomplete]
    refine iff_of_true ⟨fun x => ?_, hs, fun x => ?_, hs.next_free_spec⟩ fun t ht hlt hle => ?_
    · rw [IntRange.contains_iff]
      exact ⟨Or.inl, fun h => h.elim id fun h => hall x h.1 h.2⟩
    · rw [IntRange.contains_iff]
      exact iff_of_false (hempty x) fun h => h.2 (hall x h.1.1 h.1.2)
    · have := hs.not_covered_to ht hlt hall
      omega
  · have hcomplete : s.complete r = complete_loop rest s OrderedSet.empty before.getLast?
        ⟨a, r._end⟩ := hout
    have hfree := hpassed.first_free hrest
    have hstarted := hpassed.started
    -- the ranges that begin after the new one
    have hlater : ∀ t ∈ s, r._start < t._start → t ∈ rest := fun t ht hlt => by
      have := hs.not_covered_to ht hlt hpassed.covered
      refine (hpassed.cases ht).resolve_left fun hm => ?_
      have := hpassed.ended t hm
      have := hs.proper t ht
      omega
    have hmem : ∀ t ∈ rest, t ∈ s ∧ r._start < t._start := fun t ht =>
      ⟨hpassed.mem (List.mem_append_right _ ht), hstarted.trans_lt (hrest t ht)⟩
    rw [hcomplete]
    cases rest with
    | nil =>
      exact iff_of_true (completed_of_stop hs hpassed hrest (by simp)) fun t ht hlt _ => by
        cases hlater t ht hlt
    | cons current rest =>
      obtain ⟨hcurrent, hafter⟩ := hmem current List.mem_cons_self
      have htail : ∀ t ∈ rest, current._end < t._start := by
        have hpair := (List.pairwise_append.1 (hpassed.split ▸ hs.apart)).2.1
        exact (List.pairwise_cons.1 hpair).1
      have hproper := hs.proper current hcurrent
      rcases lt_or_ge r._end current._start with hstop | hle
      · have hall : ∀ t ∈ current :: rest, r._end < t._start := by
          intro t ht
          rcases List.mem_cons.1 ht with rfl | ht
          · exact hstop
          · have := htail t ht
            omega
        refine iff_of_true (completed_of_stop hs hpassed hrest hall) fun t ht hlt hle => ?_
        have := hall t (hlater t ht hlt)
        omega
      · rcases lt_or_ge r._end current._end with hlt | hend
        · rw [completed_iff_of_extend hs hfit hr hpassed hrest hle hlt]
          constructor
          · rintro rfl t ht hafter' hle'
            rcases List.mem_cons.1 (hlater t ht hafter') with rfl | hm
            · exact ⟨hlt, hfree⟩
            · have := htail t hm
              omega
          · intro hroom
            exact hfree.unique (hroom current hcurrent hafter hle).2
        · refine iff_of_false (not_completed_of_skip hs hpassed hrest hend) fun hroom => ?_
          have := (hroom current hcurrent hafter hle).1
          omega

/-! ## Calls one after the other -/

/-- The ranges after a list of calls. -/
def after (rs : List IntRange) : IntRanges := rs.foldl add OrderedSet.empty

/-- Each of any calls does what it has to do if and only if none of them is given a range with a
stored one between its first and its last integer, or one that meets a stored range to its right
with a free integer other than 0 before it. -/
theorem int_ranges_behave_as_sets_iff (rs : List IntRange) (hrs : ∀ r ∈ rs, Valid r) :
    (∀ done r, done ++ [r] <+: rs → Completed (after done) r ((after done).complete r)) ↔
      ∀ done r, done ++ [r] <+: rs → Room (after done) r := by
  refine foldl_steps_iff (I := fun s => Separated s ∧ Fits s) (f := add)
    ⟨⟨by simp, List.Pairwise.nil⟩, ?_⟩ (fun s r hr hs => completed_iff hs.1 hs.2 (hrs r hr))
    fun s r hr hs hc => ⟨hc.separated, fun x hx => ?_⟩
  · rintro x ⟨t, ht, -⟩
    cases ht
  · rcases (hc.covered x).1 hx with hx | hx
    · exact hs.2 x hx
    · have hvalid := hrs r hr
      rw [IntRange.contains_iff] at hx
      exact ⟨hvalid.low.trans hx.1, by have := hvalid.high; omega⟩

/-- A range that covers a stored one is stored beside it, and what is missing of a range that
ends in a stored one is given the start of that one as a size. -/
theorem a_covered_range_stays_and_a_size_is_an_end :
    ¬ Completed (after [⟨5, 10⟩]) ⟨0, 20⟩ ((after [⟨5, 10⟩]).complete ⟨0, 20⟩) ∧
      ¬ Completed (after [⟨10, 20⟩]) ⟨5, 12⟩ ((after [⟨10, 20⟩]).complete ⟨5, 12⟩) := by
  refine ⟨fun h => ?_, fun h => ?_⟩
  · have hapart := h.separated.apart
    revert hapart
    decide
  · have hmissing := (h.missing 12).1 (contains_iff.1 (by decide))
    exact absurd hmissing.1 (by decide)

/-- A range that touches one to its left. -/
theorem ranges_that_touch_are_merged :
    Completed (after [⟨4, 6⟩]) ⟨6, 8⟩ ((after [⟨4, 6⟩]).complete ⟨6, 8⟩) := by
  refine (int_ranges_behave_as_sets_iff [⟨4, 6⟩, ⟨6, 8⟩] ?_).2 ?_ [⟨4, 6⟩] ⟨6, 8⟩ List.prefix_rfl
  · intro r hr
    rcases List.mem_cons.1 hr with rfl | hr
    · exact ⟨by decide, by decide, by decide⟩
    · obtain rfl := List.mem_singleton.1 hr
      exact ⟨by decide, by decide, by decide⟩
  · -- no stored range begins after the new one
    have hroom : ∀ t ∈ after [⟨4, 6⟩], ¬ (6 : Int) < t._start := by
      have hall : ∀ t ∈ (after [⟨4, 6⟩]).elements, ¬ (6 : Int) < t._start := by decide
      exact hall
    intro done r hp
    rcases done with _ | ⟨a, _ | ⟨b, done⟩⟩
    · intro t ht
      cases ht
    · obtain ⟨rfl, rfl⟩ : a = ⟨4, 6⟩ ∧ r = ⟨6, 8⟩ := by simpa using hp
      exact fun t ht hlt _ => absurd hlt (hroom t ht)
    · simp at hp

end IntRanges

end elle
