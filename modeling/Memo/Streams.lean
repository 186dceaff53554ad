-- Buffered streams. What is read is taken from the chunk that is available, and from the next ones
-- until there is enough or none is left; the chunks leave no trace in it.
import Memo.Codec

open codec

namespace streams

variable {S F : Type}

/-! ## Reading -/

/-- What is available, and where the next chunks come from. -/
structure Input (S : Type) where
  available : Bytes := []
  source : S

/-- A buffered stream, and whether its end was met. -/
structure Istream (S : Type) extends Input S where
  eof : Bool := false

/-- `xsgetn`: chunks are read until there is enough. A chunk that is empty is the end. -/
def sgetn (read_buffer : S → Except F (Bytes × S)) :
    Nat → Nat → Input S → Except F (Bytes × Input S)
  | 0, _, i => .ok ([], i)
  | fuel + 1, n, i =>
    if n ≤ i.available.length then
      .ok (i.available.take n, { i with available := i.available.drop n })
    else do
      let (b, source) ← read_buffer i.source
      if b = [] then pure (i.available, ⟨[], source⟩)
      else do
        let (rest, i') ← sgetn read_buffer fuel (n - i.available.length) ⟨b, source⟩
        pure (i.available ++ rest, i')

/-- `std::istream::read`. Every chunk but the first available one has a byte, so there are at most
as many chunks as bytes. -/
def read (read_buffer : S → Except F (Bytes × S)) (n : Nat) (s : Istream S) :
    Except F (Bytes × Istream S) :=
  if s.eof then .ok ([], s)
  else do
    let (b, i) ← sgetn read_buffer (n + 2) n s.toInput
    pure (b, ⟨i, b.length < n⟩)

/-- Pieces of these sizes, one after the other. -/
def reads (read_buffer : S → Except F (Bytes × S)) :
    List Nat → Istream S → Except F (List Bytes × Istream S)
  | [], s => .ok ([], s)
  | n :: sizes, s => do
    let (b, s) ← read read_buffer n s
    let (l, s) ← reads read_buffer sizes s
    pure (b :: l, s)

/-- The pieces of these sizes of some bytes. -/
def pieces : List Nat → Bytes → List Bytes
  | [], _ => []
  | n :: sizes, b => b.take n :: pieces sizes (b.drop n)

/-- How much all the pieces may have. -/
def total : List Nat → Nat
  | [] => 0
  | n :: sizes => n + total sizes

theorem pieces_flatten {sizes : List Nat} {b : Bytes} (h : b.length ≤ total sizes) :
    (pieces sizes b).flatten = b := by
  induction sizes generalizing b with
  | nil => exact (List.eq_nil_of_length_eq_zero (Nat.le_zero.1 h)).symm
  | cons n sizes ih =>
    have hrest : (b.drop n).length ≤ total sizes := by
      rw [List.length_drop]
      simp only [total] at h
      omega
    rw [pieces, List.flatten_cons, ih hrest, List.take_append_drop]

/-- A source gives what is left of it chunk by chunk, and a chunk is empty at the end only. -/
def Gives (read_buffer : S → Except F (Bytes × S)) (left : S → Bytes → Prop) : Prop :=
  ∀ s b, left s b → ∃ c rest s', read_buffer s = .ok (c, s') ∧ b = c ++ rest ∧ left s' rest ∧
    (c = [] → rest = [])

/-- What is left of a stream. -/
def Input.Holds (left : S → Bytes → Prop) (i : Input S) (b : Bytes) : Prop :=
  ∃ v, b = i.available ++ v ∧ left i.source v

variable {read_buffer : S → Except F (Bytes × S)} {left : S → Bytes → Prop}

theorem sgetn_spec (h : Gives read_buffer left) {fuel n : Nat} {i : Input S} {b : Bytes}
    (hi : i.Holds left b) (hfuel : n + 2 ≤ fuel ∨ i.available ≠ [] ∧ n + 1 ≤ fuel) :
    ∃ i', sgetn read_buffer fuel n i = .ok (b.take n, i') ∧ i'.Holds left (b.drop n) := by
  induction fuel generalizing n i b with
  | zero => omega
  | succ fuel ih =>
    obtain ⟨v, rfl, hleft⟩ := hi
    unfold sgetn
    by_cases henough : n ≤ i.available.length
    · rw [if_pos henough, List.take_append_of_le_length henough]
      exact ⟨_, rfl, v, List.drop_append_of_le_length henough, hleft⟩
    · obtain ⟨c, rest, s, hread, rfl, hrest, hend⟩ := h _ _ hleft
      rw [if_neg henough, hread]
      simp only [bind, Except.bind]
      by_cases hc : c = []
      · have hnil := hend hc
        subst hc hnil
        refine ⟨⟨[], s⟩, ?_, [], ?_, hrest⟩
        · simp [pure, Except.pure, List.take_of_length_le (by omega : i.available.length ≤ n)]
        · simp [List.drop_of_length_le (by omega : i.available.length ≤ n)]
      · rw [if_neg hc]
        have hshort : i.available.length ≤ n := by omega
        have hbound : n - i.available.length + 1 ≤ fuel := by
          rcases hfuel with hfuel | ⟨hne, hfuel⟩
          · omega
          · have := List.length_pos_iff.2 hne
            omega
        obtain ⟨i', hget, hholds⟩ := ih (n := n - i.available.length) (i := ⟨c, s⟩)
          ⟨rest, rfl, hrest⟩ (.inr ⟨hc, hbound⟩)
        refine ⟨i', ?_, ?_⟩
        · have htake : (i.available ++ (c ++ rest)).take n =
              i.available ++ (c ++ rest).take (n - i.available.length) := by
            rw [List.take_append, List.take_of_length_le hshort]
          rw [hget, htake]
          rfl
        · rw [List.drop_append, List.drop_of_length_le hshort]
          exact hholds

/-- What is left of a stream whose end is met only when nothing is. -/
def Istream.Holds (left : S → Bytes → Prop) (s : Istream S) (b : Bytes) : Prop :=
  s.toInput.Holds left b ∧ (s.eof = true → b = [])

theorem read_spec (h : Gives read_buffer left) {s : Istream S} {b : Bytes} (hs : s.Holds left b)
    (n : Nat) :
    ∃ s', read read_buffer n s = .ok (b.take n, s') ∧ s'.Holds left (b.drop n) := by
  unfold read
  cases heof : s.eof with
  | true =>
    obtain rfl := hs.2 heof
    refine ⟨s, by simp, ?_⟩
    rw [List.drop_nil]
    exact hs
  | false =>
    obtain ⟨i, hget, hholds⟩ := sgetn_spec h hs.1 (n := n) (.inl (Nat.le_refl _))
    rw [hget]
    refine ⟨⟨i, (b.take n).length < n⟩, rfl, hholds, fun hend => ?_⟩
    have hshort : (b.take n).length < n := by simpa using hend
    rw [List.length_take] at hshort
    exact List.drop_of_length_le (by omega)

theorem reads_spec (h : Gives read_buffer left) {s : Istream S} {b : Bytes} (hs : s.Holds left b)
    (sizes : List Nat) : ∃ s', reads read_buffer sizes s = .ok (pieces sizes b, s') := by
  induction sizes generalizing s b with
  | nil => exact ⟨s, rfl⟩
  | cons n sizes ih =>
    obtain ⟨s', hread, hholds⟩ := read_spec h hs n
    obtain ⟨last, hlast⟩ := ih hholds
    refine ⟨last, ?_⟩
    rw [reads, hread]
    simp only [bind, Except.bind, hlast]
    rfl

end streams
