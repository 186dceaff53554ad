-- Base 64. Three bytes are four characters, and the last ones are padded. A
-- stream gathers what is written, encodes it three bytes by three bytes, and is
-- padded when it is closed; it is read by chunks.
import Memo.Codec

open codec

namespace elle.format.base64

inductive Error where
  | dataflow_exception (c : UInt8)
deriving DecidableEq

/-! ## Characters -/

/-- The character `=`. -/
def padding : UInt8 := 0x3d

/-- `base64_from_binary`. -/
def from_6_bits (n : Nat) : UInt8 :=
  if n < 26 then UInt8.ofNat (0x41 + n)
  else if n < 52 then UInt8.ofNat (0x61 + (n - 26))
  else if n < 62 then UInt8.ofNat (0x30 + (n - 52))
  else if n = 62 then 0x2b
  else 0x2f

/-- `binary_from_base64`. The padding is rendered as zero. -/
def to_6_bits (c : UInt8) : Except Error Nat :=
  if 0x41 ≤ c.toNat ∧ c.toNat ≤ 0x5a then .ok (c.toNat - 0x41)
  else if 0x61 ≤ c.toNat ∧ c.toNat ≤ 0x7a then .ok (c.toNat - 0x61 + 26)
  else if 0x30 ≤ c.toNat ∧ c.toNat ≤ 0x39 then .ok (c.toNat - 0x30 + 52)
  else if c.toNat = 0x2b then .ok 62
  else if c.toNat = 0x2f then .ok 63
  else if c = padding then .ok 0
  else .error (.dataflow_exception c)

variable {s : StreamBuffer} {b u : Bytes} {n : Nat}

theorem to_6_bits_from (h : n < 64) : to_6_bits (from_6_bits n) = .ok n := by
  have hall : ∀ n < 64, (to_6_bits (from_6_bits n)).toOption = some n := by decide
  have hn := hall n h
  cases hto : to_6_bits (from_6_bits n) with
  | error e =>
    rw [hto] at hn
    cases hn
  | ok m =>
    rw [hto] at hn
    cases hn
    rfl

theorem from_6_bits_ascii (h : n < 64) :
    (from_6_bits n).toNat < 0x80 ∧ from_6_bits n ≠ padding := by
  have hall : ∀ n < 64, (from_6_bits n).toNat < 0x80 ∧ from_6_bits n ≠ padding := by decide
  exact hall n h

/-! ## Groups of characters -/

def first (a : UInt8) : UInt8 := from_6_bits (a.toNat / 4)

def second (a b : Nat) : UInt8 := from_6_bits (a % 4 * 16 + b / 16)

def third (b c : Nat) : UInt8 := from_6_bits (b % 16 * 4 + c / 64)

def fourth (c : UInt8) : UInt8 := from_6_bits (c.toNat % 64)

/-- `_stream_encode`. The bits that are missing at the end are zero. -/
def _stream_encode : Bytes → Bytes
  | a :: b :: c :: rest =>
    first a :: second a.toNat b.toNat :: third b.toNat c.toNat :: fourth c :: _stream_encode rest
  | [a, b] => [first a, second a.toNat b.toNat, third b.toNat 0]
  | [a] => [first a, second a.toNat 0]
  | [] => []

/-- A byte that two groups of bits make. -/
def byte (high low : Nat) : UInt8 := UInt8.ofNat (high % 0x100 + low)

/-- `_stream_decode`, of groups of four characters. -/
def _stream_decode : Bytes → Except Error Bytes
  | a :: b :: c :: d :: rest => do
    let x ← to_6_bits a
    let y ← to_6_bits b
    let z ← to_6_bits c
    let t ← to_6_bits d
    let l ← _stream_decode rest
    pure (byte (x * 4) (y / 16) :: byte (y * 16) (z / 4) :: byte (z * 64) t :: l)
  | _ => pure []

theorem byte_first {a : UInt8} (h : n < 16) :
    byte (a.toNat / 4 * 4) ((a.toNat % 4 * 16 + n) / 16) = a := by
  have ha := a.toNat_lt
  unfold byte
  rw [show a.toNat / 4 * 4 % 0x100 + (a.toNat % 4 * 16 + n) / 16 = a.toNat by omega,
    UInt8.ofNat_toNat]

theorem byte_second {a b : UInt8} (h : n < 4) :
    byte ((a.toNat % 4 * 16 + b.toNat / 16) * 16) ((b.toNat % 16 * 4 + n) / 4) = b := by
  have hb := b.toNat_lt
  unfold byte
  rw [show (a.toNat % 4 * 16 + b.toNat / 16) * 16 % 0x100 + (b.toNat % 16 * 4 + n) / 4 = b.toNat
    by omega, UInt8.ofNat_toNat]

theorem byte_third {b c : UInt8} :
    byte ((b.toNat % 16 * 4 + c.toNat / 64) * 64) (c.toNat % 64) = c := by
  have hc := c.toNat_lt
  unfold byte
  rw [show (b.toNat % 16 * 4 + c.toNat / 64) * 64 % 0x100 + c.toNat % 64 = c.toNat by omega,
    UInt8.ofNat_toNat]

theorem to_6_bits_first (a : UInt8) : to_6_bits (first a) = .ok (a.toNat / 4) :=
  to_6_bits_from (by have := a.toNat_lt; omega)

theorem to_6_bits_second (a : UInt8) (h : n < 256) :
    to_6_bits (second a.toNat n) = .ok (a.toNat % 4 * 16 + n / 16) :=
  to_6_bits_from (by omega)

theorem to_6_bits_third (b : UInt8) (h : n < 256) :
    to_6_bits (third b.toNat n) = .ok (b.toNat % 16 * 4 + n / 64) :=
  to_6_bits_from (by omega)

theorem to_6_bits_fourth (c : UInt8) : to_6_bits (fourth c) = .ok (c.toNat % 64) :=
  to_6_bits_from (by omega)

theorem _stream_encode_append (h : u.length % 3 = 0) (v : Bytes) :
    _stream_encode (u ++ v) = _stream_encode u ++ _stream_encode v := by
  fun_induction _stream_encode u with
  | case1 a b c rest ih =>
    simp only [List.length_cons] at h
    simp only [List.cons_append, _stream_encode, ih (by omega)]
  | case2 a b => simp at h
  | case3 a => simp at h
  | case4 => rfl

theorem _stream_encode_length (h : u.length % 3 = 0) :
    (_stream_encode u).length = u.length / 3 * 4 := by
  fun_induction _stream_encode u with
  | case1 a b c rest ih =>
    simp only [List.length_cons] at h ⊢
    rw [ih (by omega)]
    omega
  | case2 a b => simp at h
  | case3 a => simp at h
  | case4 => rfl

theorem _stream_decode_encode (h : u.length % 3 = 0) :
    _stream_decode (_stream_encode u) = .ok u := by
  fun_induction _stream_encode u with
  | case1 a b c rest ih =>
    simp only [List.length_cons] at h
    have hb := b.toNat_lt
    have hc := c.toNat_lt
    unfold _stream_decode
    rw [to_6_bits_first, to_6_bits_second a hb, to_6_bits_third b hc, to_6_bits_fourth,
      ih (by omega)]
    simp only [bind, Except.bind, pure, Except.pure]
    rw [byte_first (by omega), byte_second (by omega), byte_third]
  | case2 a b => simp at h
  | case3 a => simp at h
  | case4 => rfl

theorem _stream_encode_mem {c : UInt8} (h : c ∈ _stream_encode u) :
    ∃ n < 64, c = from_6_bits n := by
  have hfirst : ∀ a : UInt8, ∃ n < 64, first a = from_6_bits n := fun a =>
    ⟨_, by have := a.toNat_lt; omega, rfl⟩
  have hsecond : ∀ (a : UInt8) {n : Nat}, n < 256 → ∃ m < 64, second a.toNat n = from_6_bits m :=
    fun a n hn => ⟨_, by omega, rfl⟩
  have hthird : ∀ (b : UInt8) {n : Nat}, n < 256 → ∃ m < 64, third b.toNat n = from_6_bits m :=
    fun b n hn => ⟨_, by omega, rfl⟩
  have hfourth : ∀ c : UInt8, ∃ n < 64, fourth c = from_6_bits n := fun c => ⟨_, by omega, rfl⟩
  suffices hall : ∀ c ∈ _stream_encode u, ∃ n < 64, c = from_6_bits n from hall c h
  clear h
  fun_induction _stream_encode u with
  | case1 a b c rest ih =>
    simp only [List.forall_mem_cons]
    exact ⟨hfirst a, hsecond a b.toNat_lt, hthird b c.toNat_lt, hfourth c, ih⟩
  | case2 a b =>
    simp only [List.forall_mem_cons]
    exact ⟨hfirst a, hsecond a b.toNat_lt, hthird b (by omega), nofun⟩
  | case3 a =>
    simp only [List.forall_mem_cons]
    exact ⟨hfirst a, hsecond a (by omega), nofun⟩
  | case4 => nofun

theorem _stream_encode_ascii (u : Bytes) :
    ∀ c ∈ _stream_encode u, c.toNat < 0x80 ∧ c ≠ padding := by
  intro c hc
  obtain ⟨n, hn, rfl⟩ := _stream_encode_mem hc
  exact from_6_bits_ascii hn

/-! ## Writing to a stream -/

/-- `sizeof(_buffer_write)`, and `sizeof(_buffer_read)`. -/
def buffer_size : Nat := 4096

/-- What was encoded to the stream below, the bytes that were pushed back in the buffer, and those
that were written after them. -/
structure StreamBuffer where
  _stream : Bytes
  _remaining_write : Bytes
  written : Bytes

namespace StreamBuffer

/-- `StreamBuffer::flush`. -/
def flush (s : StreamBuffer) : StreamBuffer :=
  let all := s._remaining_write ++ s.written
  let size := all.length - all.length % 3
  { _stream := s._stream ++ _stream_encode (all.take size)
    _remaining_write := all.drop size
    written := [] }

/-- One character, after a flush when the buffer is full. -/
def put (s : StreamBuffer) (c : UInt8) : StreamBuffer :=
  if s.written.length < buffer_size - s._remaining_write.length then
    { s with written := s.written ++ [c] }
  else { s.flush with written := [c] }

def padding_of : Nat → Bytes
  | 1 => [padding, padding]
  | 2 => [padding]
  | _ => []

/-- `StreamBuffer::finalize`. -/
def finalize (s : StreamBuffer) : StreamBuffer :=
  if s._remaining_write = [] then s
  else { s with _stream := s._stream ++ (_stream_encode s._remaining_write ++
          padding_of s._remaining_write.length) }

end StreamBuffer

/-- `Stream::write` to a new stream, which is then destroyed. -/
def Stream.write (b : Bytes) : Bytes :=
  (b.foldl StreamBuffer.put ⟨[], [], []⟩).flush.finalize._stream

/-- Bytes in base 64, with their padding. -/
def text (b : Bytes) : Bytes := _stream_encode b ++ StreamBuffer.padding_of (b.length % 3)

/-- All that was written is encoded, or is still in the buffer. -/
structure Gathered (s : StreamBuffer) (b : Bytes) : Prop where
  exists_encoded : ∃ u : Bytes, u.length % 3 = 0 ∧ s._stream = _stream_encode u ∧
    b = u ++ (s._remaining_write ++ s.written)
  remaining : s._remaining_write.length < 3

theorem Gathered.flush (h : Gathered s b) :
    Gathered s.flush b ∧ s.flush.written = [] := by
  obtain ⟨u, hu, hs, hb⟩ := h.exists_encoded
  generalize hall : s._remaining_write ++ s.written = all at hb
  have hflush : s.flush = ⟨s._stream ++ _stream_encode (all.take (all.length - all.length % 3)),
      all.drop (all.length - all.length % 3), []⟩ := by
    rw [← hall]
    rfl
  rw [hflush]
  refine ⟨⟨⟨u ++ all.take (all.length - all.length % 3), ?_, ?_, ?_⟩, ?_⟩, rfl⟩
  · rw [List.length_append, List.length_take]
    omega
  · rw [_stream_encode_append hu, ← hs]
  · rw [hb, List.append_assoc, List.append_nil, List.take_append_drop]
  · rw [List.length_drop]
    omega

theorem Gathered.put (h : Gathered s b) (c : UInt8) :
    Gathered (s.put c) (b ++ [c]) := by
  unfold StreamBuffer.put
  split
  · obtain ⟨u, hu, hs, hb⟩ := h.exists_encoded
    exact ⟨⟨u, hu, hs, by simp [hb]⟩, h.remaining⟩
  · obtain ⟨hflush, hnil⟩ := h.flush
    obtain ⟨u, hu, hs, hb⟩ := hflush.exists_encoded
    exact ⟨⟨u, hu, hs, by simp [hb, hnil]⟩, hflush.remaining⟩

theorem Gathered.foldl (h : Gathered s b) (l : Bytes) :
    Gathered (l.foldl StreamBuffer.put s) (b ++ l) := by
  induction l generalizing s b with
  | nil => simpa using h
  | cons c l ih =>
    rw [List.foldl_cons, show b ++ c :: l = (b ++ [c]) ++ l by simp]
    exact ih (h.put c)

theorem Gathered.finalize (h : Gathered s b) (hnil : s.written = []) :
    s.finalize._stream = text b := by
  obtain ⟨u, hu, hs, hb⟩ := h.exists_encoded
  have hremaining := h.remaining
  have hmod : b.length % 3 = s._remaining_write.length := by
    rw [hb, hnil, List.append_nil, List.length_append]
    omega
  unfold StreamBuffer.finalize text
  rw [hmod, hb, hnil, List.append_nil, _stream_encode_append hu, ← hs]
  split
  · next hempty => simp [hempty, StreamBuffer.padding_of, _stream_encode]
  · rw [List.append_assoc]

theorem write_eq_text (b : Bytes) : Stream.write b = text b := by
  have hstart : Gathered ⟨[], [], []⟩ [] := ⟨⟨[], rfl, rfl, rfl⟩, by simp⟩
  obtain ⟨hflush, hnil⟩ := (hstart.foldl b).flush
  exact hflush.finalize hnil

/-! ## Reading from a stream -/

/-- The last group of characters, of which some are padding. -/
def decode_last (group : Bytes) : Except Error Bytes :=
  match group with
  | [a, b, c, _] => do
    let x ← to_6_bits a
    let y ← to_6_bits b
    if c = padding then pure [byte (x * 4) (y / 16)]
    else do
      let z ← to_6_bits c
      pure [byte (x * 4) (y / 16), byte (y * 16) (z / 4)]
  | _ => pure []

/-- `StreamBuffer::read_buffer`: what is decoded, and what is left in the stream below. The
characters that do not make a group are lost. -/
def read_buffer (stream : Bytes) : Except Error (Bytes × Bytes) := do
  let size := buffer_size / 3 * 4
  let chunk := stream.take size
  let read := chunk.length - chunk.length % 4
  let buffer := chunk.take read
  if buffer.getLast? = some padding then do
    let b ← _stream_decode (buffer.take (read - 4))
    let last ← decode_last (buffer.drop (read - 4))
    pure (b ++ last, stream.drop size)
  else do
    let b ← _stream_decode buffer
    pure (b, stream.drop size)

/-- The stream is read until nothing comes. There are at most as many reads as characters. -/
def read_all : Nat → Bytes → Except Error Bytes
  | 0, _ => pure []
  | n + 1, stream => do
    let (b, stream') ← read_buffer stream
    if b = [] then pure []
    else do
      let l ← read_all n stream'
      pure (b ++ l)

def Stream.read (stream : Bytes) : Except Error Bytes := read_all (stream.length + 1) stream

theorem text_append (h : u.length % 3 = 0) (v : Bytes) :
    text (u ++ v) = _stream_encode u ++ text v := by
  unfold text
  rw [_stream_encode_append h, List.append_assoc, List.length_append,
    show (u.length + v.length) % 3 = v.length % 3 by omega]

theorem text_ascii (b : Bytes) : ∀ c ∈ text b, c.toNat < 0x80 := by
  intro c hc
  unfold text at hc
  rcases List.mem_append.1 hc with hc | hc
  · exact (_stream_encode_ascii b c hc).1
  · unfold StreamBuffer.padding_of at hc
    split at hc <;> simp_all [padding]

theorem getLast?_encode (u : Bytes) : (_stream_encode u).getLast? ≠ some padding := by
  intro h
  exact (_stream_encode_ascii u padding (List.mem_of_getLast? h)).2 rfl

theorem read_buffer_groups (h : u.length % 3 = 0) (hu : u.length ≤ 4095) (rest : Bytes)
    (hrest : u.length < 4095 → rest = []) :
    read_buffer (_stream_encode u ++ rest) = .ok (u, rest) := by
  have hlength := _stream_encode_length h
  have htake : (_stream_encode u ++ rest).take (buffer_size / 3 * 4) = _stream_encode u := by
    by_cases hlt : u.length < 4095
    · rw [hrest hlt, List.append_nil, List.take_of_length_le]
      unfold buffer_size
      omega
    · rw [List.take_left']
      unfold buffer_size
      omega
  have hdrop : (_stream_encode u ++ rest).drop (buffer_size / 3 * 4) = rest := by
    by_cases hlt : u.length < 4095
    · rw [hrest hlt, List.append_nil, List.drop_eq_nil_of_le]
      unfold buffer_size
      omega
    · rw [List.drop_left']
      unfold buffer_size
      omega
  have hread : (_stream_encode u).length - (_stream_encode u).length % 4
      = (_stream_encode u).length := by omega
  unfold read_buffer
  simp only [htake, hdrop, hread, List.take_length]
  rw [if_neg (getLast?_encode u), _stream_decode_encode h]
  rfl

/-- The last group, and the byte after it, whose first bits are in its last character. -/
def last_group (after : UInt8) : Bytes → Bytes
  | [a, b] => [first a, second a.toNat b.toNat, third b.toNat after.toNat, padding]
  | [a] => [first a, second a.toNat after.toNat, padding, padding]
  | _ => []

/-- Bytes in base 64, with their padding and what their last character has. -/
def text_of (after : UInt8) (b : Bytes) : Bytes :=
  _stream_encode (b.take (b.length / 3 * 3)) ++ last_group after (b.drop (b.length / 3 * 3))

theorem text_of_append (after : UInt8) (h : u.length % 3 = 0) (v : Bytes) :
    text_of after (u ++ v) = _stream_encode u ++ text_of after v := by
  have hlength : (u ++ v).length / 3 * 3 = u.length + v.length / 3 * 3 := by
    rw [List.length_append]
    omega
  unfold text_of
  rw [hlength, List.take_length_add_append, List.drop_length_add_append, _stream_encode_append h,
    List.append_assoc]

theorem text_of_short (after : UInt8) {v : Bytes} (h : v.length < 3) :
    text_of after v = last_group after v := by
  have hzero : v.length / 3 * 3 = 0 := by omega
  rw [text_of, hzero, List.take_zero, List.drop_zero]
  rfl

theorem exists_groups (b : Bytes) :
    ∃ u v : Bytes, b = u ++ v ∧ u.length % 3 = 0 ∧ v.length = b.length % 3 := by
  refine ⟨b.take (b.length / 3 * 3), b.drop (b.length / 3 * 3),
    (List.take_append_drop _ b).symm, ?_, ?_⟩
  · rw [List.length_take]
    omega
  · rw [List.length_drop]
    omega

theorem text_eq (b : Bytes) : text b = text_of 0 b := by
  obtain ⟨u, v, rfl, hu, hv⟩ := exists_groups b
  rw [text_append hu, text_of_append 0 hu, text_of_short 0 (by omega)]
  match v, hv with
  | [], _ => rfl
  | [_], _ => rfl
  | [_, _], _ => rfl
  | _ :: _ :: _ :: _, hv =>
    simp only [List.length_append, List.length_cons] at hv
    omega

theorem decode_last_two (a b after : UInt8) :
    decode_last (last_group after [a, b]) = .ok [a, b] := by
  have hb := b.toNat_lt
  have hafter := after.toNat_lt
  have hthird : third b.toNat after.toNat ≠ padding := (from_6_bits_ascii (by omega)).2
  unfold decode_last last_group
  simp only [to_6_bits_first, to_6_bits_second a hb, to_6_bits_third b hafter, if_neg hthird, bind,
    Except.bind, pure, Except.pure]
  rw [byte_first (by omega), byte_second (by omega)]

theorem decode_last_one (a after : UInt8) : decode_last (last_group after [a]) = .ok [a] := by
  have hafter := after.toNat_lt
  unfold decode_last last_group
  simp only [to_6_bits_first, to_6_bits_second a hafter, bind, Except.bind, pure, Except.pure,
    if_true]
  rw [byte_first (by omega)]

theorem read_buffer_last {v : Bytes} (h : u.length % 3 = 0) (hu : u.length < 4095) {group : Bytes}
    (hgroup : group.length = 4) (hpadding : group.getLast? = some padding)
    (hlast : decode_last group = .ok v) :
    read_buffer (_stream_encode u ++ group) = .ok (u ++ v, []) := by
  have hlength := _stream_encode_length h
  have hsum : (_stream_encode u ++ group).length = (_stream_encode u).length + 4 := by
    rw [List.length_append, hgroup]
  have htake : (_stream_encode u ++ group).take (buffer_size / 3 * 4)
      = _stream_encode u ++ group := by
    apply List.take_of_length_le
    rw [hsum]
    unfold buffer_size
    omega
  have hdrop : (_stream_encode u ++ group).drop (buffer_size / 3 * 4) = [] := by
    apply List.drop_eq_nil_of_le
    rw [hsum]
    unfold buffer_size
    omega
  have hread : (_stream_encode u ++ group).length - (_stream_encode u ++ group).length % 4
      = (_stream_encode u ++ group).length := by omega
  have hfour : (_stream_encode u ++ group).length - 4 = (_stream_encode u).length := by omega
  have hend : (_stream_encode u ++ group).getLast? = some padding := by
    rw [List.getLast?_append, hpadding]
    rfl
  unfold read_buffer
  simp only [htake, hdrop, hread, List.take_length, hfour, List.take_left, List.drop_left]
  rw [if_pos hend, _stream_decode_encode h, hlast]
  rfl

theorem read_buffer_text (after : UInt8) (h : b.length < 4095) :
    read_buffer (text_of after b) = .ok (b, []) := by
  obtain ⟨u, v, rfl, hu, hv⟩ := exists_groups b
  rw [List.length_append] at h hv
  rw [text_of_append after hu, text_of_short after (by omega)]
  match v, hv with
  | [], _ => simpa [last_group] using
      read_buffer_groups hu (by simp only [List.length_nil] at h; omega) [] fun _ => rfl
  | [a], _ => exact read_buffer_last hu (by omega) rfl rfl (decode_last_one a after)
  | [a, c], _ => exact read_buffer_last hu (by omega) rfl rfl (decode_last_two a c after)
  | _ :: _ :: _ :: _, hv =>
    simp only [List.length_cons] at hv
    omega

theorem text_of_chunk (after : UInt8) (h : 4095 ≤ b.length) :
    text_of after b = _stream_encode (b.take 4095) ++ text_of after (b.drop 4095) := by
  have hlength : (b.take 4095).length % 3 = 0 := by
    rw [List.length_take, Nat.min_eq_left h]
  rw [← text_of_append after hlength, List.take_append_drop]

theorem read_all_nil (n : Nat) : read_all n [] = .ok [] := by
  cases n with
  | zero => rfl
  | succ n => rfl

theorem read_all_text (after : UInt8) (h : (text_of after b).length < n) :
    read_all n (text_of after b) = .ok b := by
  induction n generalizing b with
  | zero => omega
  | succ n ih =>
    unfold read_all
    by_cases hlt : b.length < 4095
    · rw [read_buffer_text after hlt]
      simp only [bind, Except.bind]
      split
      · next hnil => rw [hnil]; rfl
      · rw [read_all_nil]
        simp [pure, Except.pure]
    · have hu : (b.take 4095).length = 4095 := by
        rw [List.length_take]
        omega
      have hsplit := text_of_chunk after (show 4095 ≤ b.length by omega)
      have hlength := _stream_encode_length (u := b.take 4095) (by omega)
      have hne : b.take 4095 ≠ [] := by
        intro hnil
        rw [hnil] at hu
        cases hu
      rw [hsplit, List.length_append] at h
      rw [hsplit, read_buffer_groups (by omega) (by omega) _ fun hlt' => by omega]
      simp only [bind, Except.bind, if_neg hne]
      rw [ih (by omega)]
      simp [pure, Except.pure]

theorem read_write (b : Bytes) : Stream.read (Stream.write b) = .ok b := by
  rw [write_eq_text, text_eq]
  exact read_all_text 0 (Nat.lt_succ_self _)

end elle.format.base64
