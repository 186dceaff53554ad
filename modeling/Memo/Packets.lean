-- Packets over a stream of bytes, as `elle::protocol::Serializer` writes and reads
-- them. A packet is sent in chunks, a control byte stands between two chunks and,
-- from version 0.3.0 on, before each packet. The writer may be interrupted between
-- two chunks, and pings and pongs may stand wherever a control byte does.
import Memo.Binary

open ops codec elle.binary

namespace elle.protocol

/-- What reading a packet throws. A chunk of 2^31 bytes or more is not read at all, and the packet
holds what was in the memory. -/
inductive Error where
  | eos
  | interruption
  | checksum_error
  | error (what : String)
  | number (e : elle.binary.Error)
  | unread
  | stuck
deriving DecidableEq

/-- The checksum of a packet, a SHA-1. -/
structure Checksum where
  compute : Bytes → Bytes
  length_compute : ∀ content, (compute content).length = 20

/-- What an endpoint writes and reads with. -/
structure Impl where
  version : Version
  chunk_size : Nat
  checksum : Bool
  chunk_size_pos : 0 < chunk_size

/-! ## Integers -/

/-- `Stream::uint32_put`. -/
def uint32_put (v : Version) (i : Nat) : Bytes :=
  if ⟨0, 3, 0⟩ ≤ v then put_number (i % 2 ^ 32 : Nat) else (to_memory 4 (i % 2 ^ 32)).reverse

/-- `Stream::uint32_get`. -/
def uint32_get (v : Version) : Op Bytes Error Nat :=
  if ⟨0, 3, 0⟩ ≤ v then do
    let res ← Op.mapError .number get_number
    if res < 0 ∨ 2 ^ 32 - 1 < res then Op.throw (.error "unexpected uint32_t")
    else pure res.toNat
  else do
    let res ← get_bytes 4 fun _ => .eos
    pure (of_memory res.reverse)

/-! ## Blocks and chunks -/

/-- The bytes of a chunk. The size is compared as a signed number. -/
def read_chunk (size : Nat) : Op Bytes Error Bytes :=
  if size < 2 ^ 31 then get_bytes size fun _ => .eos else Op.throw .unread

/-- `read` of a size and its content. -/
def read_block (v : Version) : Op Bytes Error Bytes := do
  let size ← uint32_get v
  read_chunk size

def write_block (v : Version) (content : Bytes) : Bytes := uint32_put v content.length ++ content

/-! ## Control bytes -/

inductive Control where
  | keep_going
  | interrupt
  | message
  | ping
  | pong

def Control.byte : Control → UInt8
  | .keep_going => 0
  | .interrupt => 1
  | .message => 2
  | .ping => 3
  | .pong => 4

/-- One turn of `read_control`. A byte from 0x80 on is a negative `char`, which passes the check
and means nothing. -/
def control_turn (v : Version) : Op Bytes Error (Option Bool) := do
  let control ← get_bytes 1 fun _ => .eos
  match control.headD 0 with
  | 0 => pure (some true)
  | 1 => pure (some false)
  | 2 => do
    let _ ← read_block v
    pure none
  | 3 => pure none
  | 4 => pure none
  | c => if c.toNat < 0x80 then Op.throw (.error "invalid control byte") else pure none

/-- `read_control`: whether to go on, or the packet was interrupted. -/
def read_control (v : Version) : Op Bytes Error Bool :=
  Op.run_until .stuck List.length (control_turn v)

/-! ## Reading -/

namespace Impl

variable (sha : Checksum) (f : Impl)

/-- The next chunk of a packet, of which the first bytes are there. -/
def next_chunk (total : Nat) (packet : Bytes) : Op Bytes Error Bytes := do
  let chunk ← read_chunk (min (total - packet.length) f.chunk_size)
  pure (packet ++ chunk)

/-- The loop of `_read`, after a chunk. -/
def read_chunks (total : Nat) : Nat → Bytes → Op Bytes Error Bytes
  | 0, _ => Op.throw .stuck
  | n + 1, packet =>
    if total ≤ packet.length then pure packet
    else do
      let going ← read_control f.version
      if going then do
        let packet ← f.next_chunk total packet
        read_chunks total n packet
      else Op.throw .interruption

/-- The packet without its checksum. -/
def read_packet : Op Bytes Error Bytes :=
  if ⟨0, 2, 0⟩ ≤ f.version then do
    let total_size ← uint32_get f.version
    let packet ← f.next_chunk total_size []
    f.read_chunks total_size (total_size + 1) packet
  else read_block ⟨0, 0, 0⟩

/-- A turn of the wait for a packet. -/
def start_turn : Op Bytes Error (Option Unit) := do
  let going ← read_control f.version
  pure (if going then some () else none)

/-- `_read`. -/
def _read : Op Bytes Error Bytes := do
  (if ⟨0, 3, 0⟩ ≤ f.version then Op.run_until .stuck List.length f.start_turn
    else pure () : Op Bytes Error Unit)
  let hash ← (if f.checksum then
      read_block (if ⟨0, 2, 0⟩ ≤ f.version then f.version else ⟨0, 0, 0⟩)
    else pure [] : Op Bytes Error Bytes)
  let packet ← f.read_packet
  if f.checksum && decide (sha.compute packet ≠ hash) then Op.throw .checksum_error
  else pure packet

/-- A turn of `read`: an interrupted packet is none. -/
def read_turn : Op Bytes Error (Option Bytes) :=
  Op.tryCatch (do let packet ← f._read sha; pure (some packet)) fun e =>
    if e = .interruption then pure none else Op.throw e

/-- `read`. -/
def read : Op Bytes Error Bytes := Op.run_until .stuck List.length (f.read_turn sha)

/-! ## Writing -/

end Impl

inductive Beat where
  | ping
  | pong

def Beat.control : Beat → Control
  | .ping => .ping
  | .pong => .pong

/-- What `write_pings_pongs` writes, when these are pending. -/
def write_pings_pongs (beats : List Beat) : Bytes := beats.map fun b => b.control.byte

/-- `write_control`, of no ping or pong. -/
def write_control (pending : List Beat) (control : Control) : Bytes :=
  write_pings_pongs pending ++ [control.byte]

/-- What happens between two chunks: the pings and pongs that are pending before the control byte
and after the chunk or the interruption, and whether the writer is terminated. -/
structure Boundary where
  before : List Beat
  after : List Beat
  terminate : Bool

namespace Impl

variable (sha : Checksum) (f : Impl)

/-- The loop of `_write`, after the first chunk: what is written, and whether all of it is. -/
def write_chunks (packet : Bytes) (plan : Nat → Boundary) : Nat → Nat → Nat → Bytes × Bool
  | 0, _, _ => ([], false)
  | n + 1, k, offset =>
    if offset < packet.length then
      if (plan k).terminate then
        (write_control (plan k).before .interrupt ++ write_pings_pongs (plan k).after, false)
      else
        let to_send := min f.chunk_size (packet.length - offset)
        let rest := write_chunks packet plan n (k + 1) (offset + to_send)
        (write_control (plan k).before .keep_going ++ (packet.drop offset).take to_send ++
          write_pings_pongs (plan k).after ++ rest.1, rest.2)
    else ([], true)

/-- `_write` from version 0.2.0 on, after the checksum. -/
def write_packet (packet : Bytes) (plan : Nat → Boundary) : Bytes × Bool :=
  let to_send := min f.chunk_size packet.length
  let rest := f.write_chunks packet plan (packet.length + 1) 0 to_send
  (uint32_put f.version packet.length ++ packet.take to_send ++ rest.1, rest.2)

/-- `_write`, with the pings and pongs that are pending at the start. -/
def _write (start : List Beat) (plan : Nat → Boundary) (packet : Bytes) : Bytes × Bool :=
  let body := if ⟨0, 2, 0⟩ ≤ f.version then f.write_packet packet plan
    else (write_block f.version packet, true)
  ((if ⟨0, 3, 0⟩ ≤ f.version then write_control start .keep_going else []) ++
    (if f.checksum then write_block f.version (sha.compute packet) else []) ++ body.1, body.2)

end Impl

/-! ## Integers and blocks are read back -/

/-- Two versions with the same integers and the same control bytes. -/
def SameFormat (v v' : Version) : Prop := (⟨0, 3, 0⟩ : Version) ≤ v ↔ (⟨0, 3, 0⟩ : Version) ≤ v'

theorem uint32_get_put {v v' : Version} (h : SameFormat v v') {n : Nat} (hn : n < 2 ^ 32)
    (rest : Bytes) : uint32_get v' (uint32_put v n ++ rest) = (.ok n, rest) := by
  unfold uint32_get uint32_put
  rw [Nat.mod_eq_of_lt hn]
  by_cases hv : (⟨0, 3, 0⟩ : Version) ≤ v
  · rw [if_pos hv, if_pos (h.1 hv),
      Op.bind_of_ok (Op.mapError_of_ok (get_put_number (by omega) (by omega) rest)),
      if_neg (by omega)]
    rfl
  · rw [if_neg hv, if_neg (mt h.2 hv)]
    rw [Op.bind_of_ok (get_bytes_of_length (by simp) rest _), List.reverse_reverse,
      of_memory_to_memory, Nat.mod_eq_of_lt (by omega)]
    rfl

theorem read_chunk_append {chunk : Bytes} (h : chunk.length < 2 ^ 31) (rest : Bytes) :
    read_chunk chunk.length (chunk ++ rest) = (.ok chunk, rest) := by
  unfold read_chunk
  rw [if_pos h, get_bytes_append]

theorem read_write_block {v v' : Version} (h : SameFormat v v') {content : Bytes}
    (hlen : content.length < 2 ^ 31) (rest : Bytes) :
    read_block v' (write_block v content ++ rest) = (.ok content, rest) := by
  unfold read_block write_block
  rw [List.append_assoc, Op.bind_of_ok (uint32_get_put h (by omega) _), read_chunk_append hlen]

/-! ## Pings and pongs are skipped -/

@[simp] theorem write_pings_pongs_length (beats : List Beat) :
    (write_pings_pongs beats).length = beats.length := List.length_map _

@[simp] theorem write_control_length (beats : List Beat) (c : Control) :
    (write_control beats c).length = beats.length + 1 := by
  simp [write_control]

theorem control_turn_beat (v : Version) (b : Beat) (rest : Bytes) :
    control_turn v (b.control.byte :: rest) = (.ok none, rest) := by
  cases b <;> simp [control_turn, get_bytes, Beat.control, Control.byte, Bind.bind, Op.bind]

theorem read_control_byte {v : Version} {c : UInt8} {going : Bool} {rest : Bytes}
    (h : control_turn v (c :: rest) = (.ok (some going), rest)) (beats : List Beat) :
    read_control v (write_pings_pongs beats ++ c :: rest) = (.ok going, rest) := by
  induction beats with
  | nil => exact Op.run_until_some h
  | cons b beats ih =>
    apply Op.run_until_none (control_turn_beat v b _) _ ih
    simp

theorem write_control_append (beats before : List Beat) (c : Control) :
    write_control (beats ++ before) c = write_pings_pongs beats ++ write_control before c := by
  unfold write_control write_pings_pongs
  rw [List.map_append, List.append_assoc]

theorem read_keep_going (v : Version) (beats : List Beat) (rest : Bytes) :
    read_control v (write_control beats .keep_going ++ rest) = (.ok true, rest) := by
  unfold write_control
  rw [List.append_assoc]
  exact read_control_byte rfl beats

theorem read_interrupt (v : Version) (beats : List Beat) (rest : Bytes) :
    read_control v (write_control beats .interrupt ++ rest) = (.ok false, rest) := by
  unfold write_control
  rw [List.append_assoc]
  exact read_control_byte rfl beats

/-! ## A packet is read back, or seen to be interrupted -/

namespace Impl

/-- Two endpoints that write and read alike. -/
structure Agree (w r : Impl) : Prop where
  chunk_size : w.chunk_size = r.chunk_size
  checksum : w.checksum = r.checksum
  format : SameFormat w.version r.version
  writes : (⟨0, 2, 0⟩ : Version) ≤ w.version
  reads : (⟨0, 2, 0⟩ : Version) ≤ r.version

/-- The size of the packet is an `uint32_t`, and that of its chunks an `int`. -/
def Fits (f : Impl) (packet : Bytes) : Prop :=
  packet.length < 2 ^ 32 ∧ min f.chunk_size packet.length < 2 ^ 31

/-- A reader of a packet has all of it, or sees that it was interrupted. -/
def outcome (packet : Bytes) (complete : Bool) : Except Error Bytes :=
  if complete then .ok packet else .error .interruption

variable {w r : Impl} {packet : Bytes} {plan : Nat → Boundary}

theorem next_chunk_append (h : w.Agree r) (hf : w.Fits packet) {offset : Nat}
    (hoff : offset ≤ packet.length) (rest : Bytes) :
    r.next_chunk packet.length (packet.take offset)
        ((packet.drop offset).take (min w.chunk_size (packet.length - offset)) ++ rest) =
      (.ok (packet.take (offset + min w.chunk_size (packet.length - offset))), rest) := by
  have hlen : ((packet.drop offset).take (min w.chunk_size (packet.length - offset))).length =
      min (packet.length - (packet.take offset).length) r.chunk_size := by
    rw [List.length_take, List.length_drop, List.length_take, ← h.chunk_size]
    omega
  have hsmall := hf.2
  unfold next_chunk
  rw [← hlen, Op.bind_of_ok (read_chunk_append (by rw [List.length_take]; omega) rest)]
  rw [List.take_add]
  rfl

variable (plan) in
theorem read_chunks_write (h : w.Agree r) (hf : w.Fits packet) {n m k offset : Nat}
    (hoff : offset ≤ packet.length) (hn : packet.length - offset < n)
    (hm : packet.length - offset < m) (beats : List Beat) (rest : Bytes) :
    ∃ left, (left = beats ∨ ∃ k, left = (plan k).after) ∧
      ((w.write_chunks packet plan n k offset).2 = false →
        left.length < beats.length + (w.write_chunks packet plan n k offset).1.length) ∧
      r.read_chunks packet.length m (packet.take offset)
          (write_pings_pongs beats ++ ((w.write_chunks packet plan n k offset).1 ++ rest)) =
        (outcome packet (w.write_chunks packet plan n k offset).2,
          write_pings_pongs left ++ rest) := by
  induction n generalizing m k offset beats with
  | zero => omega
  | succ n ih =>
    obtain ⟨m, rfl⟩ : ∃ m', m = m' + 1 := ⟨m - 1, by omega⟩
    have hlen : (packet.take offset).length = offset := by
      rw [List.length_take]
      omega
    unfold write_chunks read_chunks
    rw [hlen]
    by_cases hlt : offset < packet.length
    · rw [if_pos hlt, if_neg (show ¬packet.length ≤ offset by omega)]
      by_cases hterm : (plan k).terminate = true
      · rw [if_pos hterm]
        refine ⟨(plan k).after, Or.inr ⟨k, rfl⟩, ?_, ?_⟩
        · intro _
          simp
          omega
        simp only [List.append_assoc]
        rw [← List.append_assoc (write_pings_pongs beats), ← write_control_append,
          Op.bind_of_ok (read_interrupt _ _ _)]
        rfl
      · rw [if_neg hterm]
        have hpos := w.chunk_size_pos
        obtain ⟨left, hleft, hless, hread⟩ := @ih m (k + 1)
          (offset + min w.chunk_size (packet.length - offset)) (by omega) (by omega) (by omega)
          (plan k).after
        refine ⟨left, Or.inr ?_, ?_, ?_⟩
        · rcases hleft with hleft | hleft
          · exact ⟨k, hleft⟩
          · exact hleft
        · intro hc
          have hl := hless hc
          simp only [List.length_append, write_control_length, write_pings_pongs_length]
          omega
        · simp only [List.append_assoc]
          rw [← List.append_assoc (write_pings_pongs beats), ← write_control_append,
            Op.bind_of_ok (read_keep_going _ _ _), if_pos rfl,
            Op.bind_of_ok (next_chunk_append h hf (by omega) _)]
          exact hread
    · rw [if_neg hlt, if_pos (show packet.length ≤ offset by omega)]
      refine ⟨beats, Or.inl rfl, fun hc => absurd hc.symm Bool.false_ne_true, ?_⟩
      rw [List.take_of_length_le (by omega)]
      rfl

variable (plan) in
theorem read_packet_write (h : w.Agree r) (hf : w.Fits packet) (rest : Bytes) :
    ∃ left, (left = [] ∨ ∃ k, left = (plan k).after) ∧
      ((w.write_packet packet plan).2 = false →
        left.length < (w.write_packet packet plan).1.length) ∧
      r.read_packet ((w.write_packet packet plan).1 ++ rest) =
        (outcome packet (w.write_packet packet plan).2, write_pings_pongs left ++ rest) := by
  have hpos := w.chunk_size_pos
  obtain ⟨left, hleft, hless, hread⟩ := read_chunks_write plan (n := packet.length + 1)
    (m := packet.length + 1) (k := 0) h hf (Nat.min_le_right w.chunk_size packet.length) (by omega)
    (by omega) [] rest
  refine ⟨left, hleft, ?_, ?_⟩
  · intro hc
    have hl := hless hc
    unfold write_packet
    rw [List.length_append]
    rw [List.length_nil] at hl
    omega
  have hfirst := next_chunk_append h hf (Nat.zero_le _)
    ((w.write_chunks packet plan (packet.length + 1) 0 (min w.chunk_size packet.length)).1 ++ rest)
  rw [Nat.sub_zero, Nat.zero_add, List.take_zero, List.drop_zero] at hfirst
  unfold read_packet write_packet
  simp only [List.append_assoc]
  rw [if_pos h.reads, Op.bind_of_ok (uint32_get_put h.format hf.1 _), Op.bind_of_ok hfirst]
  exact hread

/-- Before version 0.3.0 there are no pings. -/
def Silent (f : Impl) (beats : List Beat) : Prop := ⟨0, 3, 0⟩ ≤ f.version ∨ beats = []

theorem start_write (h : w.Agree r) {beats start : List Beat} (hbeats : w.Silent beats)
    (rest : Bytes) :
    (if ⟨0, 3, 0⟩ ≤ r.version then Op.run_until .stuck List.length r.start_turn
      else pure () : Op Bytes Error Unit)
        (write_pings_pongs beats ++
          ((if ⟨0, 3, 0⟩ ≤ w.version then write_control start .keep_going else []) ++ rest)) =
      (.ok (), rest) := by
  by_cases hv : (⟨0, 3, 0⟩ : Version) ≤ w.version
  · rw [if_pos hv, if_pos (h.format.1 hv), ← List.append_assoc, ← write_control_append]
    apply Op.run_until_some
    unfold start_turn
    rw [Op.bind_of_ok (read_keep_going _ _ _)]
    rfl
  · rw [if_neg hv, if_neg (mt h.format.2 hv), hbeats.resolve_left hv]
    rfl

variable {sha : Checksum}

variable (sha plan) in
theorem _read_write (h : w.Agree r) (hf : w.Fits packet) (start : List Beat) {beats : List Beat}
    (hbeats : w.Silent beats) (rest : Bytes) :
    ∃ left, (left = [] ∨ ∃ k, left = (plan k).after) ∧
      ((w._write sha start plan packet).2 = false →
        left.length < (w._write sha start plan packet).1.length) ∧
      r._read sha (write_pings_pongs beats ++ ((w._write sha start plan packet).1 ++ rest)) =
        (outcome packet (w._write sha start plan packet).2, write_pings_pongs left ++ rest) := by
  obtain ⟨left, hleft, hless, hread⟩ := read_packet_write plan h hf rest
  refine ⟨left, hleft, ?_, ?_⟩
  · unfold _write
    rw [if_pos h.writes]
    intro hc
    have hl := hless hc
    simp only [List.length_append]
    omega
  have hsum : (if r.checksum then
      read_block (if ⟨0, 2, 0⟩ ≤ r.version then r.version else ⟨0, 0, 0⟩) else pure [] :
        Op Bytes Error Bytes)
      ((if w.checksum then write_block w.version (sha.compute packet) else []) ++
        ((w.write_packet packet plan).1 ++ rest)) =
      (.ok (if r.checksum then sha.compute packet else []),
        (w.write_packet packet plan).1 ++ rest) := by
    rw [h.checksum]
    cases r.checksum with
    | false => rfl
    | true =>
      rw [if_pos rfl, if_pos rfl, if_pos h.reads]
      exact read_write_block h.format (by rw [sha.length_compute]; decide) _
  unfold _read _write
  simp only [List.append_assoc]
  rw [if_pos h.writes, Op.bind_of_ok (start_write h hbeats _), Op.bind_of_ok hsum]
  cases hc : (w.write_packet packet plan).2 with
  | true =>
    rw [hc] at hread
    rw [Op.bind_of_ok hread]
    cases r.checksum <;> simp [outcome]
  | false =>
    rw [hc] at hread
    exact Op.bind_of_error hread

theorem read_complete (h : w.Agree r) (hf : w.Fits packet) {start beats : List Beat}
    (hbeats : w.Silent beats) (hc : (w._write sha start plan packet).2 = true) (rest : Bytes) :
    ∃ left, (left = [] ∨ ∃ k, left = (plan k).after) ∧
      r.read sha (write_pings_pongs beats ++ ((w._write sha start plan packet).1 ++ rest)) =
        (.ok packet, write_pings_pongs left ++ rest) := by
  obtain ⟨left, hleft, -, hread⟩ := _read_write plan sha h hf start hbeats rest
  rw [hc] at hread
  refine ⟨left, hleft, Op.run_until_some ?_⟩
  exact Op.tryCatch_of_ok (Op.bind_of_ok hread)

theorem read_interrupted (h : w.Agree r) (hf : w.Fits packet) {start beats : List Beat}
    (hbeats : w.Silent beats) (hc : (w._write sha start plan packet).2 = false) (rest : Bytes) :
    ∃ left, (left = [] ∨ ∃ k, left = (plan k).after) ∧
      ∀ {p s}, r.read sha (write_pings_pongs left ++ rest) = (.ok p, s) →
        r.read sha (write_pings_pongs beats ++ ((w._write sha start plan packet).1 ++ rest)) =
          (.ok p, s) := by
  obtain ⟨left, hleft, hless, hread⟩ := _read_write plan sha h hf start hbeats rest
  rw [hc] at hread
  refine ⟨left, hleft, ?_⟩
  intro p s hnext
  refine Op.run_until_none ((Op.tryCatch_of_error (Op.bind_of_error hread)).trans rfl) ?_ hnext
  have hl := hless hc
  simp only [List.length_append, write_pings_pongs_length]
  omega

end Impl

/-! ## A whole session -/

/-- What an endpoint does: it sends pings and pongs, or writes a packet, with the pings and pongs
that are pending at the start. -/
inductive Event where
  | beats (pending : List Beat)
  | write (start : List Beat) (plan : Nat → Boundary) (packet : Bytes)

namespace Event

variable (sha : Checksum) (f : Impl)

def sent : Event → Bytes
  | .beats pending => write_pings_pongs pending
  | .write start plan packet => (f._write sha start plan packet).1

/-- The packet, when it was completely written. -/
def completed : Event → Option Bytes
  | .beats _ => none
  | .write start plan packet => if (f._write sha start plan packet).2 then some packet else none

def Fits : Event → Prop
  | .beats _ => True
  | .write _ _ packet => f.Fits packet

/-- Before version 0.3.0 there are no pings and no pongs. -/
def Silent : Event → Prop
  | .beats pending => f.Silent pending
  | .write start plan _ =>
    f.Silent start ∧ ∀ k, f.Silent (plan k).before ∧ f.Silent (plan k).after

end Event

def session (sha : Checksum) (f : Impl) (events : List Event) : Bytes :=
  events.flatMap fun e => e.sent sha f

def written (sha : Checksum) (f : Impl) (events : List Event) : List Bytes :=
  events.filterMap fun e => e.completed sha f

section

variable {sha : Checksum} {w r : Impl}

theorem Impl.silent_left {w : Impl} {plan : Nat → Boundary} {left : List Beat}
    (h : left = [] ∨ ∃ k, left = (plan k).after) (hs : ∀ k, w.Silent (plan k).after) :
    w.Silent left := by
  rcases h with h | ⟨k, h⟩
  · exact Or.inr h
  · rw [h]
    exact hs k

theorem session_cons (e : Event) (events : List Event) :
    session sha w (e :: events) = e.sent sha w ++ session sha w events := List.flatMap_cons

theorem written_cons_of_none {e : Event} (h : e.completed sha w = none) (events : List Event) :
    written sha w (e :: events) = written sha w events :=
  List.filterMap_cons_none h

theorem written_cons_of_some {e : Event} {packet : Bytes} (h : e.completed sha w = some packet)
    (events : List Event) : written sha w (e :: events) = packet :: written sha w events :=
  List.filterMap_cons_some h

theorem read_session (h : w.Agree r) {events : List Event} (hf : ∀ e ∈ events, e.Fits w)
    (hs : ∀ e ∈ events, e.Silent w) {beats : List Beat} (hbeats : w.Silent beats) (rest : Bytes) :
    ∃ done left pending, events = done ++ left ∧ written sha w left = [] ∧ w.Silent pending ∧
      Codec.times (r.read sha) (written sha w events).length
          (write_pings_pongs beats ++ (session sha w events ++ rest)) =
        (.ok (written sha w events),
          write_pings_pongs pending ++ (session sha w left ++ rest)) := by
  induction events generalizing beats with
  | nil => exact ⟨[], [], beats, rfl, rfl, hbeats, rfl⟩
  | cons e events ih =>
    have hf' : ∀ x ∈ events, x.Fits w := fun x hx => hf x (List.mem_cons_of_mem e hx)
    have hs' : ∀ x ∈ events, x.Silent w := fun x hx => hs x (List.mem_cons_of_mem e hx)
    have hfe := hf e List.mem_cons_self
    have hse := hs e List.mem_cons_self
    cases e with
    | beats b =>
      have hb : w.Silent (beats ++ b) := by
        rcases hbeats with hbeats | hbeats
        · exact Or.inl hbeats
        · rw [hbeats]
          exact hse
      obtain ⟨done, left, pending, heq, hleft, hpending, hread⟩ := ih hf' hs' hb
      refine ⟨.beats b :: done, left, pending, by rw [heq]; rfl, hleft, hpending, ?_⟩
      rw [written_cons_of_none rfl, session_cons, ← hread]
      simp [Event.sent, write_pings_pongs]
    | write start plan packet =>
      rw [session_cons, List.append_assoc]
      cases hc : (w._write sha start plan packet).2 with
      | true =>
        have hsome : (Event.write start plan packet).completed sha w = some packet := if_pos hc
        obtain ⟨l, hl, hpacket⟩ := Impl.read_complete h hfe hbeats hc
          (session sha w events ++ rest)
        obtain ⟨done, left, pending, heq, hleft, hpending, hread⟩ :=
          ih hf' hs' (Impl.silent_left hl fun k => (hse.2 k).2)
        refine ⟨.write start plan packet :: done, left, pending, by rw [heq]; rfl, hleft,
          hpending, ?_⟩
        rw [written_cons_of_some hsome]
        exact (Op.bind_of_ok hpacket).trans (Op.bind_of_ok hread)
      | false =>
        have hnone : (Event.write start plan packet).completed sha w = none :=
          if_neg (by rw [hc]; exact Bool.false_ne_true)
        rw [written_cons_of_none hnone]
        obtain ⟨l, hl, hskip⟩ := Impl.read_interrupted h hfe hbeats hc
          (session sha w events ++ rest)
        cases hw : written sha w events with
        | nil =>
          refine ⟨[], .write start plan packet :: events, beats, rfl, ?_, hbeats, ?_⟩
          · rw [written_cons_of_none hnone, hw]
          · rw [session_cons, List.append_assoc]
            rfl
        | cons p packets =>
          obtain ⟨done, left, pending, heq, hleft, hpending, hread⟩ :=
            ih hf' hs' (Impl.silent_left hl fun k => (hse.2 k).2)
          refine ⟨.write start plan packet :: done, left, pending, by rw [heq]; rfl, hleft,
            hpending, ?_⟩
          rw [hw] at hread
          obtain ⟨p', s, hfirst, hnext⟩ := Op.bind_eq_ok hread
          exact (Op.bind_of_ok (hskip hfirst)).trans hnext

theorem Impl.agree_self {f : Impl} (h : ⟨0, 2, 0⟩ ≤ f.version) : f.Agree f :=
  ⟨rfl, rfl, Iff.rfl, h, h⟩

end

/-- Between two endpoints of one version, the reader returns exactly the packets that were
completely written, and has read up to the end of an event then. -/
theorem interrupted_packets_vanish (sha : Checksum) (f : Impl)
    (hversion : ⟨0, 2, 0⟩ ≤ f.version) (events : List Event) (hfits : ∀ e ∈ events, e.Fits f)
    (hsilent : ∀ e ∈ events, e.Silent f) (rest : Bytes) :
    ∃ done left pending, events = done ++ left ∧ written sha f left = [] ∧ f.Silent pending ∧
      Codec.times (f.read sha) (written sha f events).length (session sha f events ++ rest) =
        (.ok (written sha f events),
          write_pings_pongs pending ++ (session sha f left ++ rest)) :=
  read_session (Impl.agree_self hversion) hfits hsilent (Or.inr rfl) rest

/-- A plan without an interruption, and without pings and pongs. -/
def calm (_ : Nat) : Boundary := ⟨[], [], false⟩

def zero_checksum : Checksum where
  compute _ := List.replicate 20 0
  length_compute _ := List.length_replicate

/-- An endpoint of version 0.3.0 that sends chunks of 2 bytes. -/
def small_chunks : Impl := ⟨⟨0, 3, 0⟩, 2, true, by decide⟩

theorem a_session_with_an_interrupted_packet :
    ∃ done left pending,
      [Event.write [.ping] (fun k => ⟨[.pong], [], decide (k = 1)⟩) [1, 2, 3, 4, 5],
        Event.write [] calm [6]] = done ++ left ∧
      written zero_checksum small_chunks left = [] ∧ small_chunks.Silent pending ∧
      Codec.times (small_chunks.read zero_checksum) 1
          (session zero_checksum small_chunks
            [Event.write [.ping] (fun k => ⟨[.pong], [], decide (k = 1)⟩) [1, 2, 3, 4, 5],
              Event.write [] calm [6]] ++ []) =
        (.ok [[6]], write_pings_pongs pending ++ (session zero_checksum small_chunks left ++ [])) :=
  interrupted_packets_vanish zero_checksum small_chunks (by decide)
    [.write [.ping] (fun k => ⟨[.pong], [], decide (k = 1)⟩) [1, 2, 3, 4, 5],
      .write [] calm [6]]
    (by
      intro e he
      simp only [List.mem_cons, List.not_mem_nil, or_false] at he
      obtain rfl | rfl := he
      · exact ⟨by decide, by decide⟩
      · exact ⟨by decide, by decide⟩)
    (by
      intro e he
      simp only [List.mem_cons, List.not_mem_nil, or_false] at he
      obtain rfl | rfl := he
      · exact ⟨Or.inl (by decide), fun k => ⟨Or.inl (by decide), Or.inl (by decide)⟩⟩
      · exact ⟨Or.inl (by decide), fun k => ⟨Or.inl (by decide), Or.inl (by decide)⟩⟩)
    []

/-! ## A packet that does not fit -/

theorem Impl.write_chunks_complete (f : Impl) (packet : Bytes) {plan : Nat → Boundary}
    (h : ∀ k, (plan k).terminate = false) {n k offset : Nat} (hn : packet.length - offset < n) :
    (f.write_chunks packet plan n k offset).2 = true := by
  have hpos := f.chunk_size_pos
  induction n generalizing k offset with
  | zero => omega
  | succ n ih =>
    unfold write_chunks
    by_cases hlt : offset < packet.length
    · rw [if_pos hlt, if_neg (by rw [h k]; exact Bool.false_ne_true)]
      exact ih (by omega)
    · rw [if_neg hlt]

theorem Impl.write_complete (sha : Checksum) (f : Impl) (start : List Beat)
    {plan : Nat → Boundary} (h : ∀ k, (plan k).terminate = false) (packet : Bytes) :
    (f._write sha start plan packet).2 = true := by
  have hpos := f.chunk_size_pos
  unfold _write
  split
  · exact f.write_chunks_complete packet h (by omega)
  · rfl

/-- An endpoint of version 0.3.0 without checksums. -/
def no_checksum : Impl := ⟨⟨0, 3, 0⟩, 1, false, by decide⟩

theorem read_empty (tail : Bytes) :
    no_checksum.read zero_checksum (0 :: 0 :: tail) = (.ok [], tail) := by
  apply Op.run_until_some
  apply Op.tryCatch_of_ok
  have hread : no_checksum._read zero_checksum (0 :: 0 :: tail) = (.ok [], tail) := by
    have hstart : Op.run_until .stuck List.length no_checksum.start_turn (0 :: 0 :: tail) =
        (.ok (), 0 :: tail) := by
      apply Op.run_until_some
      exact Op.bind_of_ok (read_keep_going ⟨0, 3, 0⟩ [] (0 :: tail))
    have hsize : uint32_get ⟨0, 3, 0⟩ (uint32_put ⟨0, 3, 0⟩ 0 ++ tail) = (.ok 0, tail) :=
      uint32_get_put Iff.rfl (by decide) tail
    exact (Op.bind_of_ok hstart).trans ((Op.bind_of_ok rfl).trans
      (Op.bind_of_ok (Op.bind_of_ok hsize)))
  exact Op.bind_of_ok hread

/-- The size of a packet of 2^32 bytes is sent as 0, and an empty packet is read. -/
theorem a_packet_of_4_GiB_is_read_as_empty :
    ¬∀ (sha : Checksum) (f : Impl), ⟨0, 2, 0⟩ ≤ f.version → ∀ (events : List Event),
      (∀ e ∈ events, e.Silent f) → ∀ rest : Bytes,
      ∃ done left pending, events = done ++ left ∧ written sha f left = [] ∧ f.Silent pending ∧
        Codec.times (f.read sha) (written sha f events).length (session sha f events ++ rest) =
          (.ok (written sha f events),
            write_pings_pongs pending ++ (session sha f left ++ rest)) := by
  intro h
  have hcalm : ∀ k, (calm k).terminate = false := fun _ => rfl
  obtain ⟨packet, hlen⟩ : ∃ packet : Bytes, packet.length = 2 ^ 32 :=
    ⟨List.replicate (2 ^ 32) 0, List.length_replicate⟩
  obtain ⟨done, left, pending, -, -, -, hread⟩ := h zero_checksum no_checksum (by decide)
    [.write [] calm packet] (by
      intro e he
      rw [List.mem_singleton.1 he]
      exact ⟨Or.inl (by decide), fun k => ⟨Or.inl (by decide), Or.inl (by decide)⟩⟩) []
  have hcomplete : (Event.write [] calm packet).completed zero_checksum no_checksum =
      some packet := if_pos (no_checksum.write_complete zero_checksum [] hcalm packet)
  have hwritten := written_cons_of_some hcomplete []
  have hsession : ∃ tail, session zero_checksum no_checksum [.write [] calm packet] ++ [] =
      0 :: 0 :: tail := by
    have hsize : uint32_put ⟨0, 3, 0⟩ packet.length = [0] := by
      rw [hlen]
      decide
    refine ⟨packet.take (min no_checksum.chunk_size packet.length) ++
      (no_checksum.write_chunks packet calm (packet.length + 1) 0
        (min no_checksum.chunk_size packet.length)).1, ?_⟩
    change ((write_control [] .keep_going ++ []) ++ (uint32_put ⟨0, 3, 0⟩ packet.length ++ _ ++ _)
      ++ []) ++ [] = _
    rw [hsize]
    simp only [write_control, write_pings_pongs, Control.byte, List.map_nil, List.nil_append,
      List.append_nil, List.cons_append]
  obtain ⟨tail, htail⟩ := hsession
  rw [hwritten, htail] at hread
  obtain ⟨p, s, hfirst, hnext⟩ := Op.bind_eq_ok hread
  rw [read_empty] at hfirst
  cases hfirst
  obtain ⟨ps, s', hps, hcons⟩ := Op.bind_eq_ok hnext
  cases hcons
  rw [List.length_nil] at hlen
  omega

/-! ## Endpoints of two versions -/

/-- A `Serializer`: the version that was agreed on, and what packets are written and read with. -/
structure Serializer where
  version : Version
  impl : Impl

/-- What an endpoint sends when it is made. -/
def hello (v : Version) : Bytes :=
  if ⟨0, 2, 0⟩ ≤ v then 0 :: elle.binary.version.put v else []

/-- The constructor of a `Serializer`, on what the peer sends. The `Impl` is made with the version
that was given. -/
def connect (version : Version) (chunk_size : Nat) (checksum : Bool) (hchunk : 0 < chunk_size) :
    Op Bytes Error Serializer :=
  if ⟨0, 2, 0⟩ ≤ version then do
    let magic ← get_bytes 1 fun _ => .error "unable to read magic"
    if magic ≠ [0] then Op.throw (.error "wrong magic for binary serialization")
    else do
      let peer_version ← Op.mapError .number elle.binary.version.get
      pure ⟨min peer_version version, ⟨version, chunk_size, checksum, hchunk⟩⟩
  else pure ⟨version, ⟨version, chunk_size, checksum, hchunk⟩⟩

/-- No write is terminated. -/
def Event.Whole : Event → Prop
  | .beats _ => True
  | .write _ plan _ => ∀ k, (plan k).terminate = false

/-- The packets are smaller than 2^31 bytes. -/
def Event.Small : Event → Prop
  | .beats _ => True
  | .write _ _ packet => packet.length < 2 ^ 31

/-- All packets that the one endpoint writes are read by the other, in order. -/
def Understands (sha : Checksum) (w r : Impl) : Prop :=
  ∀ (events : List Event) (rest : Bytes),
    (∀ e ∈ events, e.Whole ∧ e.Small ∧ e.Silent w) →
      ∃ s, Codec.times (r.read sha) (written sha w events).length (session sha w events ++ rest) =
        (.ok (written sha w events), s)

theorem Event.Small.fits {w : Impl} {e : Event} (h : e.Small) : e.Fits w := by
  cases e with
  | beats b => trivial
  | write start plan packet =>
    have hlen : packet.length < 2 ^ 31 := h
    exact ⟨by omega, by omega⟩

theorem Impl.Agree.understands {sha : Checksum} {w r : Impl} (h : w.Agree r) :
    Understands sha w r := by
  intro events rest hevents
  obtain ⟨done, left, pending, -, -, -, hread⟩ := @read_session sha w r h events
    (fun e he => (hevents e he).2.1.fits) (fun e he => (hevents e he).2.2) [] (Or.inr rfl) rest
  exact ⟨_, hread⟩

theorem read_of_error {sha : Checksum} {r : Impl} {s s' : Bytes} {e : Error}
    (h : r._read sha s = (.error e, s')) (he : e ≠ .interruption) :
    r.read sha s = (.error e, s') := by
  have hturn : r.read_turn sha s = (.error e, s') := by
    refine (Op.tryCatch_of_error (Op.bind_of_error h)).trans ?_
    rw [if_neg he]
    rfl
  exact Op.bind_of_error hturn

theorem uint32_get_short {v : Version} (hv : ¬(⟨0, 3, 0⟩ : Version) ≤ v) {s : Bytes}
    (hs : s.length < 4) : uint32_get v s = (.error .eos, []) := by
  unfold uint32_get
  rw [if_neg hv]
  exact Op.bind_of_error (get_bytes_short hs _)

theorem write_empty {sha : Checksum} {w : Impl} (hw : (⟨0, 3, 0⟩ : Version) ≤ w.version) :
    (w._write sha [] calm []).1 =
      0 :: ((if w.checksum then 20 :: sha.compute [] else []) ++ [0]) := by
  have hw' : (⟨0, 2, 0⟩ : Version) ≤ w.version := le_trans (by decide) hw
  have h0 : put_number ((0 % 2 ^ 32 : Nat) : Int) = [0] := by decide
  have h20 : put_number ((20 % 2 ^ 32 : Nat) : Int) = [20] := by decide
  unfold Impl._write Impl.write_packet Impl.write_chunks write_block uint32_put
  simp only [if_pos hw, if_pos hw', sha.length_compute, h20, List.length_nil, h0]
  cases w.checksum <;> simp [write_control, write_pings_pongs, Control.byte]

theorem old_reads_new {sha : Checksum} {w r : Impl} (hw : (⟨0, 3, 0⟩ : Version) ≤ w.version)
    (hr : ¬(⟨0, 3, 0⟩ : Version) ≤ r.version) (hr2 : (⟨0, 2, 0⟩ : Version) ≤ r.version)
    (hc : w.checksum = r.checksum) :
    r._read sha (w._write sha [] calm []).1 = (.error .eos, []) := by
  rw [write_empty hw, hc]
  unfold Impl._read
  rw [if_neg hr]
  apply (Op.bind_of_ok rfl).trans
  cases hsum : r.checksum with
  | false =>
    apply (Op.bind_of_ok rfl).trans
    apply Op.bind_of_error
    unfold Impl.read_packet
    rw [if_pos hr2]
    exact Op.bind_of_error (uint32_get_short hr (by simp))
  | true =>
    apply Op.bind_of_error
    rw [if_pos rfl, if_pos rfl, if_pos hr2]
    obtain ⟨a, b, tail, hsha⟩ : ∃ a b tail, sha.compute [] = a :: b :: tail := by
      have hlen := sha.length_compute []
      match hcompute : sha.compute [] with
      | a :: b :: tail => exact ⟨a, b, tail, rfl⟩
      | [_] => simp [hcompute] at hlen
      | [] => simp [hcompute] at hlen
    have htail : tail.length = 18 := by
      have hlen := sha.length_compute []
      rw [hsha] at hlen
      simpa using hlen
    have hsize : uint32_get r.version (0 :: 20 :: a :: b :: (tail ++ [0])) =
        (.ok (of_memory [b, a, 20, 0]), tail ++ [0]) := by
      unfold uint32_get
      rw [if_neg hr]
      exact Op.bind_of_ok (get_bytes_of_length (u := [0, 20, a, b]) rfl (tail ++ [0]) _)
    rw [hsha]
    apply (Op.bind_of_ok hsize).trans
    have ha := a.toNat_lt
    have hb := b.toNat_lt
    have hmem : of_memory [b, a, 20, 0] = b.toNat + 256 * (a.toNat + 256 * 20) := rfl
    have hshort : (tail ++ [0]).length < b.toNat + 256 * (a.toNat + 256 * 20) := by
      rw [List.length_append, htail]
      simp
      omega
    unfold read_chunk
    rw [hmem, if_pos (by omega), get_bytes_short hshort]

theorem Understands.same_format {sha : Checksum} {w r : Impl} (h : Understands sha w r)
    (hc : w.checksum = r.checksum) (hw : (⟨0, 3, 0⟩ : Version) ≤ w.version)
    (hr : (⟨0, 2, 0⟩ : Version) ≤ r.version) : (⟨0, 3, 0⟩ : Version) ≤ r.version := by
  by_contra hold
  have hcalm : ∀ k, (calm k).terminate = false := fun _ => rfl
  obtain ⟨s, hread⟩ := h [.write [] calm []] [] (by
    intro e he
    rw [List.mem_singleton.1 he]
    have hsmall : ([] : Bytes).length < 2 ^ 31 := by decide
    exact ⟨hcalm, hsmall, Or.inr rfl, fun k => ⟨Or.inr rfl, Or.inr rfl⟩⟩)
  have hcomplete : (Event.write [] calm []).completed sha w = some [] :=
    if_pos (w.write_complete sha [] hcalm [])
  rw [written_cons_of_some hcomplete] at hread
  have hsession : session sha w [.write [] calm []] ++ [] = (w._write sha [] calm []).1 := by
    rw [session_cons]
    simp [session, Event.sent]
  rw [hsession] at hread
  obtain ⟨p, s', hfirst, -⟩ := Op.bind_eq_ok hread
  rw [read_of_error (old_reads_new hw hold hr hc) Error.noConfusion] at hfirst
  cases hfirst

theorem hello_connect {va vb : Version} (ha : (⟨0, 2, 0⟩ : Version) ≤ va)
    (hb : (⟨0, 2, 0⟩ : Version) ≤ vb) (hrange : version_range vb) {chunk_size : Nat}
    {checksum : Bool} (hchunk : 0 < chunk_size) (rest : Bytes) :
    connect va chunk_size checksum hchunk (hello vb ++ rest) =
      (.ok ⟨min vb va, ⟨va, chunk_size, checksum, hchunk⟩⟩, rest) := by
  unfold connect hello
  rw [if_pos ha, if_pos hb, List.cons_append]
  apply (Op.bind_of_ok (get_bytes_of_length (u := [0]) rfl _ _)).trans
  rw [if_neg (by simp)]
  exact Op.bind_of_ok (Op.mapError_of_ok (elle.binary.version.reads hrange rest))

/-- After the exchange of their versions, two endpoints have one format and understand each other
exactly when both versions are before 0.3.0 or neither is. -/
theorem versions_understand_each_other_in_one_format (sha : Checksum) {va vb : Version}
    (ha : (⟨0, 2, 0⟩ : Version) ≤ va) (hb : (⟨0, 2, 0⟩ : Version) ≤ vb)
    (hra : version_range va) (hrb : version_range vb) {chunk_size : Nat} (checksum : Bool)
    (hchunk : 0 < chunk_size) (rest rest' : Bytes) :
    ∃ a b, connect va chunk_size checksum hchunk (hello vb ++ rest) = (.ok a, rest) ∧
      connect vb chunk_size checksum hchunk (hello va ++ rest') = (.ok b, rest') ∧
      (SameFormat a.impl.version b.impl.version ↔ SameFormat va vb) ∧
      (Understands sha a.impl b.impl ∧ Understands sha b.impl a.impl ↔ SameFormat va vb) := by
  refine ⟨_, _, hello_connect ha hb hrb hchunk rest, hello_connect hb ha hra hchunk rest', Iff.rfl,
    ?_⟩
  constructor
  · intro ⟨hab, hba⟩
    exact ⟨fun h => hab.same_format rfl h hb, fun h => hba.same_format rfl h ha⟩
  · intro h
    exact ⟨Impl.Agree.understands ⟨rfl, rfl, h, ha, hb⟩,
      Impl.Agree.understands ⟨rfl, rfl, h.symm, hb, ha⟩⟩

theorem versions_0_3_0_and_0_4_0 :
    ∃ a b, connect ⟨0, 3, 0⟩ 2 true (by decide) (hello ⟨0, 4, 0⟩ ++ []) = (.ok a, []) ∧
      connect ⟨0, 4, 0⟩ 2 true (by decide) (hello ⟨0, 3, 0⟩ ++ []) = (.ok b, []) ∧
      (SameFormat a.impl.version b.impl.version ↔ SameFormat ⟨0, 3, 0⟩ ⟨0, 4, 0⟩) ∧
      (Understands zero_checksum a.impl b.impl ∧ Understands zero_checksum b.impl a.impl ↔
        SameFormat ⟨0, 3, 0⟩ ⟨0, 4, 0⟩) :=
  versions_understand_each_other_in_one_format zero_checksum (by decide) (by decide)
    ⟨by decide, by decide, by decide⟩ ⟨by decide, by decide, by decide⟩ true (by decide) [] []

/-- The endpoint of version 0.3.0 agrees on version 0.2.0, and still writes in its own format. -/
theorem version_0_3_0_agrees_and_is_not_understood :
    ∃ a b, connect ⟨0, 3, 0⟩ 1 false (by decide) (hello ⟨0, 2, 0⟩ ++ []) = (.ok a, []) ∧
      connect ⟨0, 2, 0⟩ 1 false (by decide) (hello ⟨0, 3, 0⟩ ++ []) = (.ok b, []) ∧
      a.version = b.version ∧ ¬Understands zero_checksum a.impl b.impl := by
  refine ⟨_, _, hello_connect (by decide) (by decide) ⟨by decide, by decide, by decide⟩ _ [],
    hello_connect (by decide) (by decide) ⟨by decide, by decide, by decide⟩ _ [], by decide, ?_⟩
  intro h
  have hold := h.same_format rfl (by decide) (by decide)
  exact absurd hold (by decide)

end elle.protocol
