-- Channels over a stream of packets: `ChanneledStream.cc` and `Channel.cc`. The two ends
-- of the stream agree on a master, number the channels that they open, the one upwards
-- and the other downwards, and write the number of a channel in front of its packets.
import Mathlib.Data.Int.Bitwise
import Memo.Packets
import Memo.Runs

open ops codec runs elle.binary

namespace elle.protocol.channels

/-! ## The two ends -/

/-- The ends of the stream. -/
inductive Side where
  | alice
  | bob
deriving DecidableEq

def Side.peer : Side → Side
  | .alice => .bob
  | .bob => .alice

/-- A channel of one end and its counterpart of the other: who opened it, how many channels that end
had opened with it, and its number. -/
structure Link where
  opener : Side
  serial : Nat
  id : Int
deriving DecidableEq

/-- The link of the channels that are there from the start. -/
def Link.default : Link := ⟨.alice, 0, 0⟩

/-- `Channel`: the packets that were read of it, and those that wait. -/
structure Channel where
  link : Link
  read : List Bytes := []
  _packets : List Bytes := []

/-- How far the handshake is. -/
inductive Stage where
  | rolling
  | waiting (mine : UInt8)
  | established
  | failed
deriving DecidableEq

/-- `ChanneledStream`. -/
structure ChanneledStream where
  stage : Stage := .rolling
  _master : Bool := false
  _id_current : Int := 0
  _channels : Int → Option Channel := fun _ => none
  _channels_new : List Int := []

/-- A packet of the stream below, and the link for which it was written. Only the bytes travel. -/
structure Packet where
  bytes : Bytes
  link : Option Link

/-- Both ends, and the packets that are on their way to each. The other fields say what happened:
how many channels each end opened, the numbers that it gave, the packets that it wrote for a link,
and whether it closed its channel. -/
@[ext]
structure Net where
  ends : Side → ChanneledStream := fun _ => {}
  wire : Side → List Packet := fun _ => []
  serial : Side → Nat := fun _ => 0
  used : Side → Int → Bool := fun _ _ => false
  sent : Side → Link → List Bytes := fun _ _ => []
  closed : Side → Link → Bool := fun _ _ => false

/-! ## Numbers of channels -/

/-- `_id_generate`. -/
def ChanneledStream._id_generate (s : ChanneledStream) : Int × ChanneledStream :=
  let res := s._id_current
  let next := if s._master then to_int (res + 1) else to_int (res - 1)
  let next := if s._master then (if next < 0 then 1 else next) else (if 0 < next then -1 else next)
  (res, { s with _id_current := next })

/-- The constructor after the handshake: the default channel has the first number. -/
def ChanneledStream.new (master : Bool) : ChanneledStream :=
  let (id, s) := _id_generate { stage := .established, _master := master }
  { s with _channels := Function.update s._channels id (some { link := .default }) }

/-- `uint32_put` of the number of a channel. -/
def header (v : Version) (id : Int) : Bytes := uint32_put v (id % 2 ^ 32).toNat

/-- `uint32_get`, of a buffer: what follows the number is left. -/
def uint32_pop (v : Version) : Op Bytes Error Nat :=
  if ⟨0, 3, 0⟩ ≤ v then do
    let res ← Op.mapError .number get_number
    pure (res % 2 ^ 32).toNat
  else do
    let res ← get_bytes 4 fun _ => .error "ELLE_ASSERT_GTE((signed)b.size(), 4)"
    pure (of_memory res.reverse)

theorem uint32_pop_put (v : Version) {i : Nat} (hi : i < 2 ^ 32) (rest : Bytes) :
    uint32_pop v (uint32_put v i ++ rest) = (.ok i, rest) := by
  unfold uint32_pop uint32_put
  rw [Nat.mod_eq_of_lt hi]
  by_cases hv : (⟨0, 3, 0⟩ : Version) ≤ v
  · have hmod : ((i : Int) % 2 ^ 32).toNat = i := by omega
    rw [if_pos hv, if_pos hv,
      Op.bind_of_ok (Op.mapError_of_ok (get_put_number (by omega) (by omega) rest)), hmod]
    rfl
  · rw [if_neg hv, if_neg hv, Op.bind_of_ok (get_bytes_of_length (by simp) rest _),
      List.reverse_reverse, of_memory_to_memory, Nat.mod_eq_of_lt (by omega)]
    rfl

/-- The numbers that an int holds. -/
def IsInt (id : Int) : Prop := -2 ^ 31 ≤ id ∧ id < 2 ^ 31

theorem header_read (v : Version) {id : Int} (h : IsInt id) (packet : Bytes) :
    ∃ i, uint32_pop v (header v id ++ packet) = (.ok i, packet) ∧ to_int i = id := by
  have hi : (id % 2 ^ 32).toNat < 2 ^ 32 := by omega
  have hpop : uint32_pop v (header v id ++ packet) = _ := uint32_pop_put v hi packet
  refine ⟨_, hpop, ?_⟩
  unfold IsInt at h
  unfold to_int
  rw [Int.bmod_def]
  split <;> omega

/-! ## Steps -/

/-- What an end does: a turn of the handshake is to write a roll and to compare it with the roll of
the peer, and a turn of the read thread is to deliver a packet. -/
inductive Action where
  | roll (x : Side) (mine : UInt8)
  | compare (x : Side)
  | create (x : Side)
  | write (x : Side) (id : Int) (packet : Bytes)
  | deliver (x : Side)
  | accept (x : Side)
  | read (x : Side) (id : Int)
  | destroy (x : Side) (id : Int)
deriving DecidableEq

/-- The value of a char, which is signed on some machines. -/
def char (signed : Bool) (c : UInt8) : Int :=
  if signed ∧ 128 ≤ c.toNat then c.toNat - 256 else c.toNat

/-- What `_handshake` does with the roll of the peer. -/
def judge (signed : Bool) (mine : UInt8) (p : Bytes) : ChanneledStream :=
  match p with
  | [his] => if mine = his then {} else .new (char signed his < char signed mine)
  | _ => { stage := .failed }

/-- The other end opens the channels of this number. -/
def ChanneledStream.Foreign (s : ChanneledStream) (id : Int) : Prop :=
  ¬(s._master = true ∧ 0 < id ∨ s._master = false ∧ id < 0)

instance (s : ChanneledStream) (id : Int) : Decidable (s.Foreign id) :=
  inferInstanceAs (Decidable ¬_)

namespace Net

def put (x : Side) (s : ChanneledStream) (n : Net) : Net :=
  { n with ends := Function.update n.ends x s }

/-- The channels of an end are changed at a number. -/
def put_channel (x : Side) (id : Int) (c : Option Channel) (n : Net) : Net :=
  n.put x { n.ends x with _channels := Function.update (n.ends x)._channels id c }

/-- A packet from `x` to its peer. -/
def send (x : Side) (p : Packet) (n : Net) : Net :=
  { n with wire := Function.update n.wire x.peer (n.wire x.peer ++ [p]) }

/-- The packets on their way to `x`, without the first. -/
def take (x : Side) (rest : List Packet) (n : Net) : Net :=
  { n with wire := Function.update n.wire x rest }

/-- A channel that its end has opened or accepted. -/
def held (n : Net) (x : Side) (id : Int) : Option Channel :=
  if id ∈ (n.ends x)._channels_new then none else (n.ends x)._channels id

/-- A turn of `_read_thread`. -/
def _read_thread (v : Version) (x : Side) (p : Packet) (n : Net) : Net :=
  match uint32_pop v p.bytes with
  | (.error _, _) => n.put x { n.ends x with stage := .failed }
  | (.ok i, packet) =>
    let id := to_int i
    match (n.ends x)._channels id with
    | some c => n.put_channel x id (some { c with _packets := c._packets ++ [packet] })
    | none =>
      if (n.ends x).Foreign id then
        let n := n.put_channel x id (some { link := p.link.getD .default, _packets := [packet] })
        n.put x { n.ends x with _channels_new := (n.ends x)._channels_new ++ [id] }
      else
        -- an orphaned packet is discarded
        n

/-- `Channel(ChanneledStream&)`, unless its assertion fails. -/
def create (x : Side) (n : Net) : Option Net :=
  let (id, s) := (n.ends x)._id_generate
  match s._channels id with
  | some _ => none
  | none =>
    let n := (n.put x s).put_channel x id (some { link := ⟨x, n.serial x + 1, id⟩ })
    some { n with
      serial := Function.update n.serial x (n.serial x + 1)
      used := Function.update n.used x (Function.update (n.used x) id true) }

/-- `Channel::_write`. -/
def write (v : Version) (x : Side) (c : Channel) (id : Int) (packet : Bytes) (n : Net) : Net :=
  let n := n.send x ⟨header v id ++ packet, some c.link⟩
  { n with
    sent := Function.update n.sent x
      (Function.update (n.sent x) c.link (n.sent x c.link ++ [packet])) }

/-- `~Channel`. -/
def destroy (x : Side) (c : Channel) (id : Int) (n : Net) : Net :=
  let n := n.put_channel x id none
  { n with closed := Function.update n.closed x (Function.update (n.closed x) c.link true) }

end Net

/-- A step, if the end can take it. -/
def step (v : Version) (char_signed : Side → Bool) (n : Net) : Action → Option Net
  | .roll x mine =>
    if (n.ends x).stage = .rolling then
      some ((n.send x ⟨[mine], none⟩).put x { n.ends x with stage := .waiting mine })
    else
      none
  | .compare x =>
    match (n.ends x).stage, n.wire x with
    | .waiting mine, p :: rest =>
      some ((n.take x rest).put x (judge (char_signed x) mine p.bytes))
    | _, _ => none
  | .create x => if (n.ends x).stage = .established then n.create x else none
  | .write x id packet => (n.held x id).map fun c => n.write v x c id packet
  | .deliver x =>
    match (n.ends x).stage, n.wire x with
    | .established, p :: rest => some ((n.take x rest)._read_thread v x p)
    | _, _ => none
  | .accept x =>
    match (n.ends x)._channels_new with
    | _ :: rest => some (n.put x { n.ends x with _channels_new := rest })
    | [] => none
  | .read x id =>
    (n.held x id).bind fun c =>
      match c._packets with
      | packet :: rest =>
        some (n.put_channel x id (some { c with read := c.read ++ [packet], _packets := rest }))
      | [] => none
  | .destroy x id => if id = 0 then none else (n.held x id).map fun c => n.destroy x c id

/-! ## What channels are for -/

/-- The packets of a link among others. -/
def flying (v : Version) (ps : List Packet) (l : Link) : List Bytes :=
  ps.filterMap fun p => if p.link = some l then some (uint32_pop v p.bytes).2 else none

/-- No channel and no packet on its way has this number. -/
def Dead (n : Net) (id : Int) : Prop :=
  ∀ x, (n.ends x)._channels id = none ∧ ∀ p ∈ n.wire x, ∀ l ∈ p.link, l.id ≠ id

/-- Packets are not mixed: of two rolls that differ one is the master's, a number that may be given
is free, two channels with one number are counterparts, and what was read of a channel, what waits
in it and what is on its way to it are the packets that were written on its counterpart. -/
structure Right (v : Version) (n : Net) : Prop where
  handshake : ∀ x, (n.ends x).stage ≠ .failed
  one_master : (∀ x, (n.ends x).stage = .established) →
    (n.ends .alice)._master ≠ (n.ends .bob)._master
  fresh : ∀ x, (n.ends x).stage = .established →
    (n.used x (n.ends x)._id_current = true → Dead n (n.ends x)._id_current) →
      (n.ends x)._channels (n.ends x)._id_current = none
  counterparts : ∀ id c c', (n.ends .alice)._channels id = some c →
    (n.ends .bob)._channels id = some c' → c.link = c'.link
  apart : ∀ x id id' c c', (n.ends x)._channels id = some c →
    (n.ends x)._channels id' = some c' → c.link = c'.link → id = id'
  exact : ∀ x id c, (n.ends x)._channels id = some c →
    c.read ++ c._packets ++ flying v (n.wire x) c.link = n.sent x.peer c.link

/-- What an end may do: it gives a number again once that is dead, and it writes on a channel as
long as the peer has not destroyed the counterpart. -/
def Provided (n : Net) : Action → Prop
  | .create x => n.used x (n.ends x)._id_current = true → Dead n (n.ends x)._id_current
  | .write x id _ => ∀ c ∈ (n.ends x)._channels id, n.closed x.peer c.link = false
  | _ => True

/-- Two rolls that differ compare in the same way at both ends: chars are the same there, or the
rolls have the same high bit. -/
def Comparable (char_signed : Side → Bool) (mine his : UInt8) : Prop :=
  mine = his ∨ char_signed .alice = char_signed .bob ∨ (128 ≤ mine.toNat ↔ 128 ≤ his.toNat)

/-- The rolls of a turn of the handshake are comparable. -/
def Fair (char_signed : Side → Bool) (n : Net) : Action → Prop
  | .compare x =>
    match (n.ends x).stage, n.wire x with
    | .waiting mine, ⟨[his], _⟩ :: _ => Comparable char_signed mine his
    | _, _ => True
  | _ => True

/-- A packet arrives for a channel that the peer opened and that was destroyed already. -/
def Late (n : Net) : Action → Prop
  | .deliver x =>
    match n.wire x with
    | ⟨_, some l⟩ :: _ => l.opener = x.peer ∧ n.closed x l = true
    | _ => False
  | _ => False

end elle.protocol.channels
