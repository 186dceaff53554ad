-- Streams in base 64 and in base 64 for URLs, written and flushed in any way, and read in pieces of
-- any size. The sizes are of the type `int` in places.
import Memo.Base64
import Memo.Streams

open codec streams

namespace elle.format

/-! ## Writing -/

namespace base64

/-- What is done with a stream before it is destroyed. -/
inductive Op where
  | write (b : Bytes)
  | flush

/-- All that is written. -/
def content (ops : List Op) : Bytes :=
  ops.flatMap fun op =>
    match op with
    | .write b => b
    | .flush => []

def Op.run (s : StreamBuffer) : Op → StreamBuffer
  | .write b => b.foldl StreamBuffer.put s
  | .flush => s.flush

/-- `StreamBuffer::finalize`, with the byte after those that remain in the buffer. -/
def StreamBuffer.finalize_with (after : UInt8) (s : StreamBuffer) : Bytes :=
  s._stream ++ last_group after s._remaining_write

/-- What is in the stream below, once the stream is destroyed. -/
def Stream.written (after : UInt8) (ops : List Op) : Bytes :=
  (ops.foldl Op.run ⟨[], [], []⟩).flush.finalize_with after

theorem Gathered.run {s : StreamBuffer} {b : Bytes} (h : Gathered s b) (op : Op) :
    Gathered (op.run s) (b ++ content [op]) := by
  cases op with
  | write l => simpa [content, Op.run] using h.foldl l
  | flush => simpa [content, Op.run] using h.flush.1

theorem Gathered.ops {s : StreamBuffer} {b : Bytes} (h : Gathered s b) (ops : List Op) :
    Gathered (ops.foldl Op.run s) (b ++ content ops) := by
  induction ops generalizing s b with
  | nil => simpa [content] using h
  | cons op ops ih =>
    have hcontent : b ++ content (op :: ops) = (b ++ content [op]) ++ content ops := by
      simp [content]
    rw [List.foldl_cons, hcontent]
    exact ih (h.run op)

theorem Gathered.finalize_with {s : StreamBuffer} {b : Bytes} (h : Gathered s b)
    (hnil : s.written = []) (after : UInt8) : s.finalize_with after = text_of after b := by
  obtain ⟨u, hu, hs, rfl⟩ := h.exists_encoded
  rw [StreamBuffer.finalize_with, hnil, List.append_nil, text_of_append after hu,
    text_of_short after h.remaining, hs]

theorem written_eq_text (after : UInt8) (ops : List Op) :
    Stream.written after ops = text_of after (content ops) := by
  have hstart : Gathered ⟨[], [], []⟩ [] := ⟨⟨[], rfl, rfl, rfl⟩, by simp⟩
  obtain ⟨hflush, hnil⟩ := (hstart.ops ops).flush
  exact hflush.finalize_with hnil after

end base64

/-! ## Base 64 for URLs -/

namespace base64url

open base64

def to_url (c : UInt8) : UInt8 := if c = 0x2b then 0x2d else if c = 0x2f then 0x5f else c

def of_url (c : UInt8) : UInt8 := if c = 0x2d then 0x2b else if c = 0x5f then 0x2f else c

/-- `RewriteStreamBuffer`: what was written to the stream below, and what is in the buffer. -/
structure RewriteStreamBuffer where
  _backend : Bytes
  written : Bytes

namespace RewriteStreamBuffer

/-- `StreamBuffer::sync`, with `RewriteStreamBuffer::write`. -/
def sync (s : RewriteStreamBuffer) : RewriteStreamBuffer :=
  ⟨s._backend ++ s.written.map to_url, []⟩

/-- One character, after a flush when the buffer is full. -/
def put (s : RewriteStreamBuffer) (c : UInt8) : RewriteStreamBuffer :=
  if s.written.length < buffer_size then { s with written := s.written ++ [c] }
  else { s.sync with written := [c] }

theorem put_sync (s : RewriteStreamBuffer) (l : Bytes) :
    (l.foldl put s).sync._backend = s._backend ++ (s.written ++ l).map to_url := by
  induction l generalizing s with
  | nil => simp [sync]
  | cons c l ih =>
    rw [List.foldl_cons, ih]
    unfold put
    split <;> simp [sync]

/-- `RewriteStreamBuffer::read`, of a chunk. -/
def read_buffer (backend : Bytes) : Except Error (Bytes × Bytes) :=
  .ok ((backend.take buffer_size).map of_url, backend.drop buffer_size)

end RewriteStreamBuffer

/-- What is in the stream below, once the stream and its rewriter are destroyed. -/
def Stream.written (after : UInt8) (ops : List Op) : Bytes :=
  ((base64.Stream.written after ops).foldl RewriteStreamBuffer.put ⟨[], []⟩).sync._backend

/-- `base64::StreamBuffer::read_buffer`, which reads from the rewriter. -/
def read_buffer (s : Istream Bytes) : Except Error (Bytes × Istream Bytes) := do
  let (chunk, s) ← read RewriteStreamBuffer.read_buffer (buffer_size / 3 * 4) s
  let (b, _) ← base64.read_buffer chunk
  pure (b, s)

theorem of_to_url {c : UInt8} (h : c ≠ 0x2d) (h' : c ≠ 0x5f) : of_url (to_url c) = c := by
  unfold to_url
  split
  · next hplus =>
    rw [hplus]
    decide
  · split
    · next hslash =>
      rw [hslash]
      decide
    · simp [of_url, h, h']

theorem written_eq_map (after : UInt8) (ops : List Op) :
    Stream.written after ops = (text_of after (content ops)).map to_url := by
  rw [Stream.written, RewriteStreamBuffer.put_sync, written_eq_text]
  rfl

end base64url

/-! ## Chunks -/

namespace base64

theorem gives (after : UInt8) : Gives read_buffer fun s b => s = text_of after b := by
  rintro _ b rfl
  by_cases hlt : b.length < 4095
  · have hnil : [] = text_of after [] :=
      (text_of_short after (v := []) (Nat.succ_pos 2)).symm
    exact ⟨b, [], [], read_buffer_text after hlt, (List.append_nil b).symm, hnil, fun _ => rfl⟩
  · have hlong : 4095 ≤ b.length := by omega
    have hu : (b.take 4095).length = 4095 := by
      rw [List.length_take, Nat.min_eq_left hlong]
    refine ⟨b.take 4095, b.drop 4095, _, ?_, (List.take_append_drop _ b).symm, rfl, fun hnil => ?_⟩
    · rw [text_of_chunk after hlong]
      exact read_buffer_groups (by omega) (by omega) _ fun hlt' => by omega
    · rw [hnil] at hu
      cases hu

theorem last_group_length (after : UInt8) {v : Bytes} (h : v.length < 3) :
    (last_group after v).length = (v.length + 2) / 3 * 4 := by
  match v, h with
  | [], _ => rfl
  | [_], _ => simp [last_group]
  | [_, _], _ => simp [last_group]
  | _ :: _ :: _ :: _, h =>
    simp only [List.length_cons] at h
    omega

theorem text_of_length (after : UInt8) (b : Bytes) :
    (text_of after b).length = (b.length + 2) / 3 * 4 := by
  obtain ⟨u, v, rfl, hu, hv⟩ := exists_groups b
  rw [List.length_append] at hv
  rw [text_of_append after hu, text_of_short after (by omega), List.length_append,
    _stream_encode_length hu, last_group_length after (by omega), List.length_append]
  omega

theorem mem_text_of {after : UInt8} {b : Bytes} {c : UInt8} (h : c ∈ text_of after b) :
    (∃ n < 64, c = from_6_bits n) ∨ c = padding := by
  obtain ⟨u, v, rfl, hu, hv⟩ := exists_groups b
  rw [List.length_append] at hv
  rw [text_of_append after hu, text_of_short after (by omega), List.mem_append] at h
  rcases h with h | h
  · exact .inl (_stream_encode_mem h)
  · have hafter := after.toNat_lt
    match v, hv with
    | [], _ => simp [last_group] at h
    | [a], _ =>
      have ha := a.toNat_lt
      simp only [last_group, List.mem_cons, List.not_mem_nil, or_false, or_self] at h
      rcases h with rfl | rfl | rfl
      · exact .inl ⟨_, by omega, rfl⟩
      · exact .inl ⟨_, by omega, rfl⟩
      · exact .inr rfl
    | [a, d], _ =>
      have ha := a.toNat_lt
      have hd := d.toNat_lt
      simp only [last_group, List.mem_cons, List.not_mem_nil, or_false] at h
      rcases h with rfl | rfl | rfl | rfl
      · exact .inl ⟨_, by omega, rfl⟩
      · exact .inl ⟨_, by omega, rfl⟩
      · exact .inl ⟨_, by omega, rfl⟩
      · exact .inr rfl
    | _ :: _ :: _ :: _, hv =>
      simp only [List.length_cons] at hv
      omega

theorem text_of_plain {after : UInt8} {b : Bytes} {c : UInt8} (h : c ∈ text_of after b) :
    c ≠ 0x2d ∧ c ≠ 0x5f := by
  have hall : ∀ n < 64, from_6_bits n ≠ 0x2d ∧ from_6_bits n ≠ 0x5f := by decide
  rcases mem_text_of h with ⟨n, hn, rfl⟩ | rfl
  · exact hall n hn
  · decide

end base64

namespace base64url

open base64

theorem rewriter_gives :
    Gives RewriteStreamBuffer.read_buffer fun backend text => text = backend.map of_url := by
  rintro backend _ rfl
  refine ⟨_, _, _, rfl, ?_, rfl, fun hnil => ?_⟩
  · rw [← List.map_append, List.take_append_drop]
  · rw [List.map_eq_nil_iff, List.take_eq_nil_iff] at hnil
    rcases hnil with hnil | rfl
    · cases hnil
    · rfl

theorem gives (after : UInt8) : Gives read_buffer fun s b =>
    s.Holds (fun backend text => text = backend.map of_url) (text_of after b) := by
  intro s b hs
  obtain ⟨s', hread, hholds⟩ := read_spec rewriter_gives hs (buffer_size / 3 * 4)
  have hsize : buffer_size / 3 * 4 = 5460 := rfl
  rw [hsize] at hread hholds
  unfold read_buffer
  rw [hsize, hread]
  simp only [bind, Except.bind]
  have hlength := text_of_length after b
  by_cases hlt : b.length < 4095
  · have htext : (text_of after b).length ≤ 5460 := by omega
    rw [List.take_of_length_le htext, read_buffer_text after hlt]
    rw [List.drop_of_length_le htext] at hholds
    refine ⟨b, [], s', rfl, (List.append_nil b).symm, ?_, fun _ => rfl⟩
    rw [text_of_short after (by decide)]
    exact hholds
  · have hlong : 4095 ≤ b.length := by omega
    have hu : (b.take 4095).length = 4095 := by
      rw [List.length_take, Nat.min_eq_left hlong]
    have hencoded : (_stream_encode (b.take 4095)).length = 5460 := by
      rw [_stream_encode_length (by omega), hu]
    have hgroups := read_buffer_groups (u := b.take 4095) (by omega) (by omega) [] fun _ => rfl
    rw [text_of_chunk after hlong, List.take_left' hencoded, ← List.append_nil (_stream_encode _),
      hgroups]
    rw [text_of_chunk after hlong, List.drop_left' hencoded] at hholds
    refine ⟨b.take 4095, b.drop 4095, s', rfl, (List.take_append_drop _ b).symm, hholds,
      fun hnil => ?_⟩
    rw [hnil] at hu
    cases hu

end base64url

/-! ## Sizes -/

namespace base64

/-- A number converted to the type `int`, which wraps around. -/
def signed (n : Int) : Int := n.bmod 0x100000000

/-- A number converted to the type `size_t`. -/
def size_t (n : Int) : Nat := (n % 0x10000000000000000).toNat

/-- `encoded_size`, all of whose numbers are of the type `int`. -/
def encoded_size (input : Bytes) : Nat :=
  size_t (signed ((signed (signed input.length + 2)).tdiv 3 * 4))

/-- How many of the last two characters are padding. -/
def padding_size (encoded : Bytes) : Nat :=
  (if encoded.getLast? = some padding then 1 else 0) +
    if encoded.dropLast.getLast? = some padding then 1 else 0

def decoded_size (encoded : Bytes) : Nat :=
  size_t (encoded.length / 4 * 3 - padding_size encoded)

inductive Failure where
  | error (e : Error)
  | assertion
deriving DecidableEq

/-- What a buffer of some size has, after bytes were written at its front. -/
def filled (memory : Nat → UInt8) (size : Nat) (b : Bytes) : Bytes :=
  b ++ (List.range (size - b.length)).map fun i => memory (b.length + i)

theorem filled_full (memory : Nat → UInt8) (b : Bytes) : filled memory b.length b = b := by
  simp [filled]

/-- `decode`, where the memory of the buffer is any. -/
def decode (memory : Nat → UInt8) (input : Bytes) : Except Failure Bytes := do
  let size := decoded_size input
  let (b, s) ← (read read_buffer size ⟨⟨[], input⟩, false⟩).mapError Failure.error
  if (b.length : Int) = signed size then do
    let (rest, _) ← (read read_buffer 1 s).mapError Failure.error
    if rest.length = 0 then pure (filled memory size b) else throw .assertion
  else throw .assertion

/-- A stream that is read in pieces of these sizes. -/
def Stream.reads (sizes : List Nat) (text : Bytes) : Except Error (List Bytes) := do
  let (l, _) ← streams.reads read_buffer sizes ⟨⟨[], text⟩, false⟩
  pure l

end base64

namespace base64url

open base64

/-- The stream, above its rewriter. -/
def Stream.start (text : Bytes) : Istream (Istream Bytes) := ⟨⟨[], ⟨⟨[], text⟩, false⟩⟩, false⟩

/-- `decode`, which does not look at what was read. -/
def decode (memory : Nat → UInt8) (input : Bytes) : Except Failure Bytes := do
  let size := decoded_size input
  let (b, _) ← (read read_buffer size (Stream.start input)).mapError Failure.error
  pure (filled memory size b)

def Stream.reads (sizes : List Nat) (text : Bytes) : Except Error (List Bytes) := do
  let (l, _) ← streams.reads read_buffer sizes (Stream.start text)
  pure l

end base64url

namespace base64

theorem signed_small {n : Int} (h : 0 ≤ n) (hn : n < 0x80000000) : signed n = n := by
  unfold signed
  rw [Int.bmod_def, Int.emod_eq_of_lt h (by omega)]
  split <;> omega

theorem signed_lt (n : Int) : -0x80000000 ≤ signed n ∧ signed n < 0x80000000 := by
  unfold signed
  rw [Int.bmod_def]
  split <;> omega

theorem size_t_small {n : Nat} (h : n < 0x10000000000000000) : size_t n = n := by
  unfold size_t
  omega

theorem encoded_size_exact_iff {b : Bytes} (h : b.length < 0x8000000000000000) :
    encoded_size b = (b.length + 2) / 3 * 4 ↔ b.length < 1610612734 := by
  unfold encoded_size
  constructor
  · intro heq
    have hrange := signed_lt ((signed (signed b.length + 2)).tdiv 3 * 4)
    unfold size_t at heq
    omega
  · intro hlt
    have hsize : signed b.length = b.length := signed_small (by omega) (by omega)
    have hsum : signed (b.length + 2) = b.length + 2 := signed_small (by omega) (by omega)
    have hquotient : ((b.length : Int) + 2).tdiv 3 * 4 = ((b.length + 2) / 3 * 4 : Nat) := by
      rw [Int.tdiv_eq_ediv_of_nonneg (by omega)]
      omega
    rw [hsize, hsum, hquotient, signed_small (by omega) (by omega), size_t_small (by omega)]

theorem padding_not_mem (u : Bytes) : padding ∉ _stream_encode u := fun h =>
  (_stream_encode_ascii u padding h).2 rfl

theorem padding_size_groups (u : Bytes) : padding_size (_stream_encode u) = 0 := by
  have hbefore : (_stream_encode u).dropLast.getLast? ≠ some padding := fun heq =>
    padding_not_mem u (List.dropLast_subset _ (List.mem_of_getLast? heq))
  rw [padding_size, if_neg (getLast?_encode u), if_neg hbefore]

theorem padding_size_last (l : Bytes) (x y : UInt8) :
    padding_size (l ++ [x, y]) =
      (if y = padding then 1 else 0) + if x = padding then 1 else 0 := by
  have hlast : (l ++ [x, y]).getLast? = some y := by simp
  have hbefore : (l ++ [x, y]).dropLast.getLast? = some x := by simp
  rw [padding_size, hlast, hbefore]
  simp only [Option.some.injEq]

theorem decoded_size_text (after : UInt8) {b : Bytes} (h : b.length < 0x8000000000000000) :
    decoded_size (text_of after b) = b.length := by
  have hlength := text_of_length after b
  suffices hpadding : b.length + padding_size (text_of after b) = (b.length + 2) / 3 * 3 by
    unfold decoded_size size_t
    omega
  obtain ⟨u, v, rfl, hu, hv⟩ := exists_groups b
  rw [List.length_append] at hv
  rw [text_of_append after hu, text_of_short after (by omega), List.length_append]
  rcases v with _ | ⟨a, _ | ⟨c, _ | ⟨d, v⟩⟩⟩
  · rw [last_group, List.append_nil, padding_size_groups, List.length_nil]
    · omega
    · simp
    · simp
  · have hsplit : _stream_encode u ++ last_group after [a] =
        (_stream_encode u ++ [first a, second a.toNat after.toNat]) ++ [padding, padding] := by
      rw [last_group, List.append_assoc]
      rfl
    rw [hsplit, padding_size_last, if_pos rfl, List.length_singleton]
    omega
  · have hc := c.toNat_lt
    have hafter := after.toNat_lt
    have hthird : third c.toNat after.toNat ≠ padding := (from_6_bits_ascii (by omega)).2
    have hsplit : _stream_encode u ++ last_group after [a, c] =
        (_stream_encode u ++ [first a, second a.toNat c.toNat]) ++
          [third c.toNat after.toNat, padding] := by
      rw [last_group, List.append_assoc]
      rfl
    rw [hsplit, padding_size_last, if_pos rfl, if_neg hthird]
    simp only [List.length_cons, List.length_nil]
    omega
  · simp only [List.length_cons] at hv
    omega

theorem mapError_ok {α ε ε' : Type} (f : ε → ε') (a : α) :
    (Except.ok a : Except ε α).mapError f = .ok a := rfl

theorem decode_text (memory : Nat → UInt8) (after : UInt8) {b : Bytes}
    (h : b.length < 0x80000000) : decode memory (text_of after b) = .ok b := by
  have hstart : Istream.Holds (fun s b => s = text_of after b)
      ⟨⟨[], text_of after b⟩, false⟩ b := ⟨⟨b, rfl, rfl⟩, nofun⟩
  obtain ⟨s, hread, hholds⟩ := read_spec (gives after) hstart b.length
  rw [List.take_length] at hread
  rw [List.drop_length] at hholds
  obtain ⟨s', hrest, -⟩ := read_spec (gives after) hholds 1
  have hsize : (b.length : Int) = signed b.length := (signed_small (by omega) (by omega)).symm
  simp only [decode, decoded_size_text after (by omega : b.length < 0x8000000000000000), hread,
    mapError_ok, bind, Except.bind, if_pos hsize, hrest]
  simp [filled_full, pure, Except.pure]

theorem reads_text (after : UInt8) (sizes : List Nat) (b : Bytes) :
    Stream.reads sizes (text_of after b) = .ok (pieces sizes b) := by
  have hstart : Istream.Holds (fun s b => s = text_of after b)
      ⟨⟨[], text_of after b⟩, false⟩ b := ⟨⟨b, rfl, rfl⟩, nofun⟩
  obtain ⟨s, hreads⟩ := reads_spec (gives after) hstart sizes
  rw [Stream.reads, hreads]
  rfl

end base64

namespace base64url

open base64

theorem to_url_padding (c : UInt8) : to_url c = padding ↔ c = padding := by
  unfold to_url padding
  split
  · next h => simp [h]
  · split
    · next h => simp [h]
    · rfl

theorem decoded_size_map (text : Bytes) : decoded_size (text.map to_url) = decoded_size text := by
  have hlast (l : Bytes) : (l.map to_url).getLast? = some padding ↔ l.getLast? = some padding := by
    rw [List.getLast?_map]
    cases l.getLast? with
    | none => simp
    | some c => simpa using to_url_padding c
  unfold decoded_size padding_size
  rw [← List.map_dropLast, List.length_map]
  simp only [hlast]

theorem of_url_text (after : UInt8) (b : Bytes) :
    ((text_of after b).map to_url).map of_url = text_of after b := by
  have hid : ∀ c ∈ text_of after b, (of_url ∘ to_url) c = id c := by
    intro c hc
    obtain ⟨hdash, hunderscore⟩ := text_of_plain hc
    exact of_to_url hdash hunderscore
  rw [List.map_map, List.map_congr_left hid, List.map_id]

theorem start_holds (after : UInt8) (b : Bytes) :
    (Stream.start ((text_of after b).map to_url)).Holds
      (fun s b => s.Holds (fun backend text => text = backend.map of_url) (text_of after b)) b :=
  ⟨⟨b, rfl, ⟨text_of after b, rfl, (of_url_text after b).symm⟩, nofun⟩, nofun⟩

theorem decode_text (memory : Nat → UInt8) (after : UInt8) {b : Bytes}
    (h : b.length < 0x8000000000000000) :
    decode memory ((text_of after b).map to_url) = .ok b := by
  obtain ⟨s, hread, -⟩ := read_spec (gives after) (start_holds after b) b.length
  rw [List.take_length] at hread
  simp only [decode, decoded_size_map, decoded_size_text after h, hread, mapError_ok, bind,
    Except.bind]
  simp [filled_full, pure, Except.pure]

theorem reads_text (after : UInt8) (sizes : List Nat) (b : Bytes) :
    Stream.reads sizes ((text_of after b).map to_url) = .ok (pieces sizes b) := by
  obtain ⟨s, hreads⟩ := reads_spec (gives after) (start_holds after b) sizes
  rw [Stream.reads, hreads]
  rfl

end base64url

/-! ## Round trips -/

open base64

inductive Kind where
  | base64
  | base64url

namespace Kind

def written : Kind → UInt8 → List Op → Bytes
  | base64 => base64.Stream.written
  | base64url => base64url.Stream.written

def reads : Kind → List Nat → Bytes → Except Error (List Bytes)
  | base64 => base64.Stream.reads
  | base64url => base64url.Stream.reads

def decode : Kind → (Nat → UInt8) → Bytes → Except Failure Bytes
  | base64 => base64.decode
  | base64url => base64url.decode

end Kind

/-- What was written has the size that was announced, and is read back, whatever the sizes of the
pieces. -/
structure RoundTrips (k : Kind) (after : UInt8) (ops : List Op) : Prop where
  encoded_size : (k.written after ops).length = encoded_size (content ops)
  pieces : ∀ sizes, k.reads sizes (k.written after ops) = .ok (pieces sizes (content ops))
  whole : ∀ sizes, (content ops).length ≤ total sizes →
    ∃ l, k.reads sizes (k.written after ops) = .ok l ∧ l.flatten = content ops
  decode : ∀ memory, k.decode memory (k.written after ops) = .ok (content ops)
  decoded_size : decoded_size (k.written after ops) = (content ops).length

theorem Kind.written_length (k : Kind) (after : UInt8) (ops : List Op) :
    (k.written after ops).length = ((content ops).length + 2) / 3 * 4 := by
  cases k with
  | base64 => rw [written, written_eq_text, text_of_length]
  | base64url => rw [written, base64url.written_eq_map, List.length_map, text_of_length]

theorem Kind.reads_written (k : Kind) (after : UInt8) (ops : List Op) (sizes : List Nat) :
    k.reads sizes (k.written after ops) = .ok (streams.pieces sizes (content ops)) := by
  cases k with
  | base64 =>
    rw [written, written_eq_text]
    exact base64.reads_text after sizes (content ops)
  | base64url =>
    rw [written, base64url.written_eq_map]
    exact base64url.reads_text after sizes (content ops)

theorem Kind.decode_written (k : Kind) (memory : Nat → UInt8) (after : UInt8) {ops : List Op}
    (h : (content ops).length < 0x80000000) :
    k.decode memory (k.written after ops) = .ok (content ops) := by
  cases k with
  | base64 =>
    rw [written, written_eq_text]
    exact base64.decode_text memory after h
  | base64url =>
    rw [written, base64url.written_eq_map]
    exact base64url.decode_text memory after (by omega)

theorem Kind.decoded_size_written (k : Kind) (after : UInt8) {ops : List Op}
    (h : (content ops).length < 0x8000000000000000) :
    base64.decoded_size (k.written after ops) = (content ops).length := by
  cases k with
  | base64 => rw [written, written_eq_text, decoded_size_text after h]
  | base64url =>
    rw [written, base64url.written_eq_map, base64url.decoded_size_map, decoded_size_text after h]

/-- Streams give back what was written, whatever the chunks, up to the size whose text is as long
as the type `int` may count. -/
theorem streams_round_trip_iff (k : Kind) (after : UInt8) (ops : List Op)
    (h : (content ops).length < 0x8000000000000000) :
    RoundTrips k after ops ↔ (content ops).length < 1610612734 := by
  constructor
  · intro hround
    have hsize := hround.encoded_size
    rw [k.written_length] at hsize
    exact (encoded_size_exact_iff h).1 hsize.symm
  · intro hlt
    refine ⟨?_, k.reads_written after ops, fun sizes hsizes => ?_,
      fun memory => k.decode_written memory after (by omega), k.decoded_size_written after h⟩
    · rw [k.written_length, (encoded_size_exact_iff h).2 hlt]
    · exact ⟨_, k.reads_written after ops sizes, pieces_flatten hsizes⟩

/-- Three bytes in two writes and a flush, in the alphabet for URLs. -/
theorem three_bytes_round_trip :
    RoundTrips .base64url 0 [.write [0xfb], .flush, .write [0xff, 0xfe]] :=
  (streams_round_trip_iff .base64url 0 [.write [0xfb], .flush, .write [0xff, 0xfe]]
    (by decide)).2 (by decide)

/-- The size that is announced for a gigabyte and a half of zeros is not the one of the text. -/
theorem a_large_text_has_another_size :
    ¬ RoundTrips .base64 0 [.write (List.replicate 1610612734 0)] := by
  have hlength : (content [.write (List.replicate 1610612734 0)]).length = 1610612734 := by
    rw [content, List.flatMap_cons, List.flatMap_nil, List.append_nil, List.length_replicate]
  intro hround
  have hsize := hround.encoded_size
  rw [Kind.written_length, hlength, encoded_size, hlength] at hsize
  revert hsize
  decide

end elle.format
