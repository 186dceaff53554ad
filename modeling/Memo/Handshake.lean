-- The handshake of channels. An end that is done gives the outcome to both: the other has yet to
-- compare its roll with the one that is first on its way, and whatever follows is for its
-- channels. So the channels are right from the first roll on.
import Memo.ChannelLaws

open ops codec runs elle.binary

namespace elle.protocol.channels

/-! ## Rolls -/
theorem char_lt_iff {signed signed' : Bool} {a b : UInt8}
    (h : signed = signed' ∨ (128 ≤ a.toNat ↔ 128 ≤ b.toNat)) :
    char signed a < char signed b ↔ char signed' a < char signed' b := by
  rcases h with rfl | h
  · rfl
  · by_cases ha : 128 ≤ a.toNat
    · have hb := h.mp ha
      cases signed <;> cases signed' <;> simp [char, ha, hb]
    · have hb : ¬128 ≤ b.toNat := fun hb => ha (h.mpr hb)
      cases signed <;> cases signed' <;> simp [char, ha, hb]

theorem char_lt_or_lt {signed : Bool} {a b : UInt8} (h : a ≠ b) :
    char signed a < char signed b ↔ ¬char signed b < char signed a := by
  have hnat : a.toNat ≠ b.toNat := fun heq => h (UInt8.toNat_inj.mp heq)
  have ha := a.toNat_lt
  have hb := b.toNat_lt
  cases signed
  all_goals
    simp only [char]
    split_ifs <;> simp at * <;> omega

theorem one_wins {char_signed : Side → Bool} {mine his : UInt8} (hne : mine ≠ his)
    (h : Comparable char_signed mine his) (x : Side) :
    decide (char (char_signed x.peer) mine < char (char_signed x.peer) his) =
      !decide (char (char_signed x) his < char (char_signed x) mine) := by
  have hsame : char_signed x.peer = char_signed x ∨ (128 ≤ mine.toNat ↔ 128 ≤ his.toNat) := by
    rcases h with h | h | h
    · exact absurd h hne
    · cases x
      · exact Or.inl h.symm
      · exact Or.inl h
    · exact Or.inr h
  rw [← decide_not, decide_eq_decide, char_lt_iff hsame]
  exact char_lt_or_lt hne

/-! ## An end that is still in the handshake -/

/-- The ends of a handshake wait each for the roll of the peer, which is in front of the packets
for its channels. -/
def pending (h : Side → Option (UInt8 × UInt8)) (s : Net) : Net :=
  { s with
    ends := fun x => (h x).elim (s.ends x) fun r => { stage := .waiting r.1 }
    wire := fun x => (h x).elim (s.wire x) fun r => ⟨[r.2], none⟩ :: s.wire x }

/-- The end that takes a step. -/
def Action.side : Action → Side
  | .roll x _ | .compare x | .create x | .write x _ _ | .deliver x | .accept x | .read x _
  | .destroy x _ => x

section

variable {h : Side → Option (UInt8 × UInt8)} {s : Net} {x : Side}

theorem pending_ends (hx : h x = none) : (pending h s).ends x = s.ends x := by
  simp [pending, hx]

theorem pending_wire (hx : h x = none) : (pending h s).wire x = s.wire x := by
  simp [pending, hx]

theorem pending_put (hx : h x = none) (t : ChanneledStream) :
    (pending h s).put x t = pending h (s.put x t) := by
  apply Net.ext
  · funext y
    by_cases hy : y = x
    · simp [pending, Net.put, hy, hx]
    · simp [pending, Net.put, hy]
  all_goals rfl

theorem pending_take (hx : h x = none) (rest : List Packet) :
    (pending h s).take x rest = pending h (s.take x rest) := by
  apply Net.ext
  · rfl
  · funext y
    by_cases hy : y = x
    · simp [pending, Net.take, hy, hx]
    · simp [pending, Net.take, hy]
  all_goals rfl

theorem pending_send (p : Packet) : (pending h s).send x p = pending h (s.send x p) := by
  apply Net.ext
  · rfl
  · funext y
    by_cases hy : y = x.peer
    · cases hp : h x.peer <;> simp [pending, Net.send, hy, hp]
    · simp [pending, Net.send, hy]
  all_goals rfl

theorem pending_put_channel (hx : h x = none) (id : Int) (c : Option Channel) :
    (pending h s).put_channel x id c = pending h (s.put_channel x id c) := by
  simp only [Net.put_channel, pending_ends hx, pending_put hx]

theorem pending_held (hx : h x = none) (id : Int) :
    (pending h s).held x id = s.held x id := by
  simp only [Net.held, pending_ends hx]

theorem pending_read_thread {v : Version} (hx : h x = none) (p : Packet) :
    (pending h s)._read_thread v x p = pending h (s._read_thread v x p) := by
  simp only [Net._read_thread, pending_ends hx]
  split
  · exact pending_put hx _
  · split
    · exact pending_put_channel hx _ _
    · split
      · simp only [pending_put_channel hx, pending_ends hx, pending_put hx]
      · rfl

theorem pending_create (hx : h x = none) :
    (pending h s).create x = (s.create x).map (pending h) := by
  simp only [Net.create, pending_ends hx]
  split
  · rfl
  · simp only [pending_put hx, pending_put_channel hx]
    rfl

theorem step_pending {v : Version} {char_signed : Side → Bool} {a : Action}
    (hx : h a.side = none) :
    step v char_signed (pending h s) a = (step v char_signed s a).map (pending h) := by
  cases a with simp only [Action.side] at hx
  | roll x mine =>
    simp only [step, pending_ends hx, pending_send, pending_put hx]
    split <;> rfl
  | compare x =>
    simp only [step, pending_ends hx, pending_wire hx]
    split
    · rw [pending_take hx, pending_put hx]
      rfl
    · rfl
  | create x =>
    simp only [step, pending_ends hx, pending_create hx]
    split <;> rfl
  | write x id packet =>
    simp only [step, pending_held hx, Option.map_map]
    congr
    funext c
    simp only [Net.write, pending_send, Function.comp_apply]
    rfl
  | deliver x =>
    simp only [step, pending_ends hx, pending_wire hx]
    split
    · rw [pending_take hx, pending_read_thread hx]
      rfl
    · rfl
  | accept x =>
    simp only [step, pending_ends hx, pending_put hx]
    split <;> rfl
  | read x id =>
    simp only [step, pending_held hx, Option.map_bind]
    congr
    funext c
    simp only [pending_put_channel hx, Function.comp_apply]
    split <;> rfl
  | destroy x id =>
    simp only [step, pending_held hx]
    split
    · rfl
    · rw [Option.map_map]
      congr
      funext c
      simp only [Net.destroy, pending_put_channel hx, Function.comp_apply]
      rfl

end

theorem step_ends {v : Version} {char_signed : Side → Bool} {n n' : Net} {a : Action} {y : Side}
    (hs : step v char_signed n a = some n') (hy : y ≠ a.side) : n'.ends y = n.ends y := by
  cases a with simp only [Action.side] at hy
  | roll x mine =>
    simp only [step] at hs
    split_ifs at hs
    cases hs
    simp [Net.put, Net.send, hy]
  | compare x =>
    simp only [step] at hs
    split at hs
    · cases hs
      simp [Net.put, Net.take, hy]
    · cases hs
  | create x =>
    simp only [step, Net.create] at hs
    split_ifs at hs
    split at hs
    · cases hs
    · cases hs
      simp [Net.put_channel, Net.put, hy]
  | write x id packet =>
    simp only [step, Option.map_eq_some_iff] at hs
    obtain ⟨c, -, rfl⟩ := hs
    rfl
  | deliver x =>
    simp only [step] at hs
    split at hs
    · cases hs
      simp only [Net._read_thread]
      split
      · simp [Net.put, Net.take, hy]
      · split
        · simp [Net.put_channel, Net.put, Net.take, hy]
        · split
          · simp [Net.put_channel, Net.put, Net.take, hy]
          · rfl
    · cases hs
  | accept x =>
    simp only [step] at hs
    split at hs
    · cases hs
      simp [Net.put, hy]
    · cases hs
  | read x id =>
    simp only [step, Option.bind_eq_some_iff] at hs
    obtain ⟨c, -, hs⟩ := hs
    split at hs
    · cases hs
      simp [Net.put_channel, Net.put, hy]
    · cases hs
  | destroy x id =>
    simp only [step] at hs
    split_ifs at hs
    obtain ⟨c, -, rfl⟩ := Option.map_eq_some_iff.mp hs
    simp [Net.destroy, Net.put_channel, Net.put, hy]

/-! ## Before an end is done -/

/-- The roll that an end wrote and did not compare. -/
def rolled (s : ChanneledStream) : List Packet :=
  match s.stage with
  | .waiting mine => [⟨[mine], none⟩]
  | _ => []

@[simp] theorem rolled_start : rolled {} = [] := rfl

@[simp] theorem rolled_waiting (mine : UInt8) :
    rolled { stage := .waiting mine } = [⟨[mine], none⟩] := rfl

/-- Each roll is on its way as long as its end waits with it, unless one end is ahead: it found
that the rolls are equal, and the other has yet to find it. -/
def Even (n : Net) : Prop := ∀ x, n.wire x = rolled (n.ends x.peer)

def Ahead (n : Net) (x : Side) : Prop :=
  ∃ mine, n.ends x.peer = { stage := .waiting mine } ∧ n.wire x = [] ∧
    n.wire x.peer = ⟨[mine], none⟩ :: rolled (n.ends x)

/-- No end is done with the handshake. -/
structure Rolling (n : Net) : Prop where
  nothing_else : n = { ends := n.ends, wire := n.wire }
  stage : ∀ x, n.ends x = {} ∨ ∃ mine, n.ends x = { stage := .waiting mine }
  rolls : Even n ∨ ∃ x, Ahead n x

/-- The rolls that the ends have yet to compare make them what they are in `s`. -/
def Awaits (char_signed : Side → Bool) (h : Side → Option (UInt8 × UInt8)) (s : Net) : Prop :=
  ∀ x mine his, h x = some (mine, his) →
    mine ≠ his ∧ s.ends x = .new (char (char_signed x) his < char (char_signed x) mine)

/-- The ends are done, or have the outcome in front of them. -/
def Settling (v : Version) (char_signed : Side → Bool) (n : Net) : Prop :=
  ∃ s h, Inv v s ∧ n = pending h s ∧ Awaits char_signed h s

namespace Rolling

variable {v : Version} {char_signed : Side → Bool} {n n' : Net} {x : Side}

theorem start : Rolling {} := ⟨rfl, fun _ => Or.inl rfl, Or.inl fun _ => rfl⟩

theorem no_channels (h : Rolling n) (id : Int) : (n.ends x)._channels id = none := by
  rcases h.stage x with hx | ⟨mine, hx⟩ <;> rw [hx]

theorem not_established (h : Rolling n) : (n.ends x).stage ≠ .established := by
  rcases h.stage x with hx | ⟨mine, hx⟩ <;> simp [hx]

theorem right (h : Rolling n) : Right v n where
  handshake x := by
    rcases h.stage x with hx | ⟨mine, hx⟩ <;> simp [hx]
  one_master hdone := absurd (hdone .alice) h.not_established
  fresh x hdone := absurd hdone h.not_established
  counterparts id c c' hc := by
    rw [h.no_channels] at hc
    cases hc
  apart x id id' c c' hc := by
    rw [h.no_channels] at hc
    cases hc
  exact x id c hc := by
    rw [h.no_channels] at hc
    cases hc

theorem roll (h : Rolling n) (mine : UInt8) (hx : (n.ends x).stage = .rolling) :
    Rolling ((n.send x ⟨[mine], none⟩).put x { n.ends x with stage := .waiting mine }) := by
  have hstart : n.ends x = {} := by
    rcases h.stage x with hx' | ⟨mine', hx'⟩
    · exact hx'
    · rw [hx'] at hx
      cases hx
  constructor
  · rw [h.nothing_else]
    rfl
  · intro y
    by_cases hy : y = x
    · exact Or.inr ⟨mine, by simp [Net.put, hy, hstart]⟩
    · simpa [Net.put, Net.send, hy] using h.stage y
  · rcases h.rolls with heven | ⟨y, mine', hpeer, hnil, hwire⟩
    · refine Or.inl fun y => ?_
      by_cases hy : y = x
      · simp [Net.put, Net.send, hy, heven x]
      · have hpeer := Side.eq_peer_iff.mpr hy
        simp [Net.put, Net.send, hpeer, heven x.peer, hstart]
    · have hy : y = x := by
        by_contra hy
        rw [Side.eq_peer_iff.mpr hy, Side.peer_peer, hstart] at hpeer
        cases hpeer
      subst hy
      refine Or.inr ⟨y, mine', ?_, ?_, ?_⟩
      · simpa [Net.put, Net.send] using hpeer
      · simpa [Net.put, Net.send] using hnil
      · simp [Net.put, Net.send, hwire, hstart]

end Rolling

/-! ## When an end is done -/

theorem new_eq (master : Bool) :
    ChanneledStream.new master =
      { stage := .established, _master := master, _id_current := if master then 1 else -1
        _channels := Function.update (fun _ => none) 0 (some { link := .default }) } := by
  cases master <;> rfl

theorem new_channels (master : Bool) (id : Int) :
    (ChanneledStream.new master)._channels id =
      if id = 0 then some { link := .default } else none := by
  simp [new_eq, Function.update_apply]

theorem Inv.of_new {v : Version} {n : Net} (master : Side → Bool) (hn : n = { ends := n.ends })
    (hends : ∀ x, n.ends x = .new (master x)) (hone : ∀ x, master x.peer = !master x) :
    Inv v n := by
  have hwire : ∀ x, n.wire x = [] := fun x => by rw [hn]
  have hclosed : ∀ x l, n.closed x l = false := fun x l => by rw [hn]
  have hsent : ∀ x l, n.sent x l = [] := fun x l => by rw [hn]
  have htable : ∀ x id c, (n.ends x)._channels id = some c → id = 0 ∧ c = { link := .default } := by
    intro x id c hc
    rw [hends, new_channels] at hc
    split_ifs at hc with hid
    exact ⟨hid, (Option.some.inj hc).symm⟩
  have huse : ∀ l, InUse n l → l = .default := by
    rintro l ⟨x, ⟨c, hc⟩ | ⟨p, hp, -⟩⟩
    · obtain ⟨hc, hlink⟩ := end_of_eq_some.mp hc
      rw [← hlink, (htable x l.id c hc).2]
    · simp [hwire] at hp
  constructor
  · intro x
    rw [hends, new_eq]
  · intro x
    simp [hends, new_eq, hone]
  · intro x
    rw [hends, new_eq]
    cases master x
    · exact ⟨⟨by decide, by decide⟩, by decide⟩
    · exact ⟨⟨by decide, by decide⟩, by decide⟩
  · intro x p hp
    simp [hwire] at hp
  · intro x id c hc
    obtain ⟨rfl, rfl⟩ := htable x id c hc
    rfl
  · exact fun x => ⟨{ link := .default }, by simp [end_of, hends, new_channels, Link.default]⟩
  · exact fun l hl hd => absurd (huse l hl) hd
  · exact fun l l' hl hl' _ => (huse l hl).trans (huse l' hl').symm
  · exact fun x l _ => ⟨hclosed x l, hsent x l⟩
  · intro x l
    have hflying : flying v (n.wire x) l = [] := by rw [hwire, flying_nil]
    cases hc : end_of n x l with
    | some c =>
      have hd := huse l (Inv.in_use_end hc)
      obtain ⟨hc', -⟩ := end_of_eq_some.mp hc
      obtain ⟨-, rfl⟩ := htable x l.id c hc'
      refine Flow.of_alive hc ⟨hclosed x l, ?_, fun _ hne => absurd hd hne⟩
      rw [hflying, hsent]
      rfl
    | none =>
      refine Flow.of_absent hc fun _ _ => ?_
      rw [hclosed, if_neg Bool.false_ne_true, hflying, hsent]

theorem Rolling.compare {v : Version} {char_signed : Side → Bool} {n : Net} {x : Side}
    {mine : UInt8} {p : Packet} {rest : List Packet} (h : Rolling n)
    (hstage : (n.ends x).stage = .waiting mine) (hwire : n.wire x = p :: rest)
    (hfair : Fair char_signed n (.compare x)) :
    Rolling ((n.take x rest).put x (judge (char_signed x) mine p.bytes)) ∨
      Settling v char_signed ((n.take x rest).put x (judge (char_signed x) mine p.bytes)) := by
  have hmine : n.ends x = { stage := .waiting mine } := by
    rcases h.stage x with hx | ⟨mine', hx⟩
    · rw [hx] at hstage
      cases hstage
    · rw [hx] at hstage ⊢
      rw [Stage.waiting.inj hstage]
  rcases h.rolls with heven | ⟨y, mine', hpeer, hnil, hahead⟩
  · have hx := heven x
    rw [hwire] at hx
    rcases h.stage x.peer with hp | ⟨his, hp⟩
    · simp [hp] at hx
    rw [hp, rolled_waiting, List.cons.injEq] at hx
    obtain ⟨rfl, rfl⟩ := hx
    have hroll : n.wire x.peer = [⟨[mine], none⟩] := by
      rw [heven, Side.peer_peer, hmine, rolled_waiting]
    by_cases heq : mine = his
    · -- the rolls are equal, and this end rolls again
      subst heq
      have hjudge : judge (char_signed x) mine [mine] = {} := if_pos rfl
      rw [hjudge]
      refine Or.inl ⟨?_, ?_, Or.inr ⟨x, mine, ?_, ?_, ?_⟩⟩
      · rw [h.nothing_else]
        rfl
      · intro y
        by_cases hy : y = x
        · exact Or.inl (by simp [Net.put, hy])
        · simpa [Net.put, Net.take, hy] using h.stage y
      · simpa [Net.put, Net.take] using hp
      · simp [Net.put, Net.take]
      · simpa [Net.put, Net.take] using hroll
    · have hjudge : judge (char_signed x) mine [his] =
          .new (char (char_signed x) his < char (char_signed x) mine) := if_neg heq
      have hcomparable : Comparable char_signed mine his := by
        simpa only [Fair, hstage, hwire] using hfair
      have hwins := one_wins heq hcomparable x
      rw [hjudge]
      generalize decide (char (char_signed x) his < char (char_signed x) mine) = master at hwins ⊢
      right
      refine ⟨{ ends := fun y => .new (if y = x then master else !master) },
        fun y => if y = x then none else some (his, mine), ?_, ?_, ?_⟩
      · refine Inv.of_new (fun y => if y = x then master else !master) rfl (fun _ => rfl)
          fun y => ?_
        rcases Side.eq_or_peer x y with rfl | rfl <;> simp
      · rw [h.nothing_else]
        apply Net.ext
        · funext y
          by_cases hy : y = x
          · simp [pending, Net.put, hy]
          · rw [Side.eq_peer_iff.mpr hy]
            simp [pending, Net.put, Net.take, hp]
        · funext y
          by_cases hy : y = x
          · simp [pending, Net.put, Net.take, hy]
          · rw [Side.eq_peer_iff.mpr hy]
            simp [pending, Net.put, Net.take, hroll]
        all_goals rfl
      · intro y mine' his' hy
        by_cases hyx : y = x
        · simp [hyx] at hy
        · simp only [if_neg hyx, Option.some.injEq, Prod.mk.injEq] at hy
          obtain ⟨rfl, rfl⟩ := hy
          refine ⟨fun h => heq h.symm, ?_⟩
          rw [Side.eq_peer_iff.mpr hyx, hwins]
          simp
  · -- the other end found that the rolls are equal
    have hy : x = y.peer := by
      by_contra hy
      have hx : x = y := by
        by_contra hx
        exact hy (Side.eq_peer_iff.mpr hx)
      rw [hx, hnil] at hwire
      cases hwire
    subst hy
    rw [hmine] at hpeer
    obtain rfl : mine = mine' := Stage.waiting.inj (congrArg ChanneledStream.stage hpeer)
    rw [hahead, List.cons.injEq] at hwire
    obtain ⟨rfl, rfl⟩ := hwire
    have hjudge : judge (char_signed y.peer) mine [mine] = {} := if_pos rfl
    rw [hjudge]
    refine Or.inl ⟨?_, ?_, Or.inl fun z => ?_⟩
    · rw [h.nothing_else]
      rfl
    · intro z
      by_cases hz : z = y.peer
      · exact Or.inl (by simp [Net.put, hz])
      · simpa [Net.put, Net.take, hz] using h.stage z
    · rcases Side.eq_or_peer y z with rfl | rfl
      · simp [Net.put, Net.take, hnil]
      · simp [Net.put, Net.take]

section

variable {v : Version} {char_signed : Side → Bool} {h : Side → Option (UInt8 × UInt8)}
  {s n' : Net} {a : Action} {x : Side}

theorem pending_none_of_channel {id : Int} {c : Channel}
    (hc : ((pending h s).ends x)._channels id = some c) : h x = none := by
  by_contra hx
  obtain ⟨r, hr⟩ := Option.ne_none_iff_exists'.mp hx
  simp [pending, hr] at hc

theorem pending_none_of_established (hx : ((pending h s).ends x).stage = .established) :
    h x = none := by
  by_contra hne
  obtain ⟨r, hr⟩ := Option.ne_none_iff_exists'.mp hne
  simp [pending, hr] at hx

theorem pending_channel {id : Int} {c : Channel}
    (hc : ((pending h s).ends x)._channels id = some c) : (s.ends x)._channels id = some c := by
  rwa [pending_ends (pending_none_of_channel hc)] at hc

theorem dead_of_pending (hawaits : Awaits char_signed h s) {id : Int} (hid : id ≠ 0)
    (hdead : Dead (pending h s) id) : Dead s id := by
  intro y
  obtain ⟨hchannel, hwire⟩ := hdead y
  cases hy : h y with
  | none =>
    rw [pending_ends hy] at hchannel
    rw [pending_wire hy] at hwire
    exact ⟨hchannel, hwire⟩
  | some r =>
    have hnew := (hawaits y r.1 r.2 hy).2
    refine ⟨by rw [hnew, new_channels, if_neg hid], fun p hp => hwire p ?_⟩
    simp [pending, hy, hp]

theorem pending_right (hinv : Inv v s) (hawaits : Awaits char_signed h s) :
    Right v (pending h s) where
  handshake x := by
    cases hx : h x with
    | none => simp [pending_ends hx, hinv.stage x]
    | some r => simp [pending, hx]
  one_master hdone := by
    rw [pending_ends (pending_none_of_established (hdone .alice)),
      pending_ends (pending_none_of_established (hdone .bob))]
    exact hinv.right.one_master fun x => hinv.stage x
  fresh x hdone hdead := by
    have hx := pending_none_of_established hdone
    rw [pending_ends hx] at hdead ⊢
    exact hinv.right.fresh x (hinv.stage x) fun hused =>
      dead_of_pending hawaits (hinv.current x).ne_zero (hdead hused)
  counterparts id c c' hc hc' :=
    hinv.right.counterparts id c c' (pending_channel hc) (pending_channel hc')
  apart x id id' c c' hc hc' :=
    hinv.right.apart x id id' c c' (pending_channel hc) (pending_channel hc')
  exact x id c hc := by
    rw [pending_wire (pending_none_of_channel hc)]
    exact hinv.right.exact x id c (pending_channel hc)

theorem pending_compare {r : UInt8 × UInt8} (hr : h a.side = some r)
    (hs : step v char_signed (pending h s) a = some n') :
    a = .compare a.side := by
  have hends : (pending h s).ends a.side = { stage := .waiting r.1 } := by simp [pending, hr]
  cases a with simp only [Action.side] at hends ⊢
  | roll x mine => simp [step, hends] at hs
  | create x => simp [step, hends] at hs
  | write x id packet => simp [step, Net.held, hends] at hs
  | deliver x => simp [step, hends] at hs
  | accept x => simp [step, hends] at hs
  | read x id => simp [step, Net.held, hends] at hs
  | destroy x id => simp [step, Net.held, hends] at hs

theorem provided_of_pending (hinv : Inv v s) (hawaits : Awaits char_signed h s)
    (ha : h a.side = none) (hok : Provided (pending h s) a) : Provided s a := by
  cases a with simp only [Action.side] at ha
  | create x =>
    simp only [Provided, pending_ends ha] at hok ⊢
    exact fun hused => dead_of_pending hawaits (hinv.current x).ne_zero (hok hused)
  | write x id packet =>
    simp only [Provided, pending_ends ha] at hok ⊢
    exact hok
  | _ => trivial

theorem late_pending (ha : h a.side = none) : Late (pending h s) a ↔ Late s a := by
  cases a with simp only [Action.side] at ha
  | deliver x =>
    simp only [Late, pending_wire ha]
    rfl
  | _ => rfl

theorem Settling.step {n : Net} (hn : Settling v char_signed n) (hok : Provided n a)
    (hlate : ¬Late n a) (hs : channels.step v char_signed n a = some n') :
    Settling v char_signed n' := by
  obtain ⟨s, h, hinv, rfl, hawaits⟩ := hn
  cases ha : h a.side with
  | none =>
    rw [step_pending ha, Option.map_eq_some_iff] at hs
    obtain ⟨s', hs', rfl⟩ := hs
    refine ⟨s', h, ?_, rfl, fun y mine his hy => ?_⟩
    · exact hinv.step (provided_of_pending hinv hawaits ha hok) (mt (late_pending ha).mpr hlate) hs'
    · have hne : y ≠ a.side := by
        rintro rfl
        rw [ha] at hy
        cases hy
      rw [step_ends hs' hne]
      exact hawaits y mine his hy
  | some r =>
    obtain ⟨mine, his⟩ := r
    have hcompare := pending_compare ha hs
    generalize a.side = x at ha hcompare
    subst hcompare
    obtain ⟨hne, hnew⟩ := hawaits x mine his ha
    have hjudge : judge (char_signed x) mine [his] = s.ends x := (if_neg hne).trans hnew.symm
    have hends : (pending h s).ends x = { stage := .waiting mine } := by simp [pending, ha]
    have hwire : (pending h s).wire x = ⟨[his], none⟩ :: s.wire x := by simp [pending, ha]
    simp only [channels.step, hends, hwire, hjudge, Option.some.injEq] at hs
    refine ⟨s, Function.update h x none, hinv, ?_, fun y mine' his' hy => ?_⟩
    · rw [← hs]
      apply Net.ext
      · funext y
        by_cases hy : y = x <;> simp [pending, Net.put, Net.take, hy]
      · funext y
        by_cases hy : y = x <;> simp [pending, Net.put, Net.take, hy]
      all_goals rfl
    · by_cases hyx : y = x
      · simp [hyx] at hy
      · rw [Function.update_of_ne hyx] at hy
        exact hawaits y mine' his' hy

theorem Settling.late {n : Net} (hn : Settling v char_signed n) (hlate : Late n a)
    (hs : channels.step v char_signed n a = some n') : ¬Right v n' := by
  obtain ⟨s, h, hinv, rfl, hawaits⟩ := hn
  cases a with try exact absurd hlate id
  | deliver x =>
    cases hx : h x with
    | none =>
      rw [step_pending hx, Option.map_eq_some_iff] at hs
      obtain ⟨s', hs', rfl⟩ := hs
      obtain ⟨id, c, hc, hne⟩ := hinv.late ((late_pending hx).mp hlate) hs'
      intro hright
      have hexact := hright.exact x id c (by rwa [pending_ends hx])
      rw [pending_wire hx] at hexact
      exact hne hexact
    | some r =>
      have hcompare := pending_compare (a := .deliver x) hx hs
      cases hcompare

end

/-! ## Whole runs -/

/-- What the ends may do, and the rolls compare in the same way. -/
def Admitted (char_signed : Side → Bool) (n : Net) (a : Action) : Prop :=
  Provided n a ∧ Fair char_signed n a

/-- The handshake goes on, or its outcome is in front of both ends. -/
def Sound (v : Version) (char_signed : Side → Bool) (n : Net) : Prop :=
  Rolling n ∨ Settling v char_signed n

section

variable {v : Version} {char_signed : Side → Bool} {n n' : Net} {a : Action}

theorem Rolling.step (h : Rolling n) (hfair : Fair char_signed n a)
    (hs : channels.step v char_signed n a = some n') : Sound v char_signed n' := by
  cases a with
  | roll x mine =>
    simp only [channels.step] at hs
    split_ifs at hs with hx
    cases hs
    exact Or.inl (h.roll mine hx)
  | compare x =>
    simp only [channels.step] at hs
    split at hs
    · rename_i hstage hwire
      cases hs
      exact h.compare hstage hwire hfair
    · cases hs
  | create x => simp [channels.step, h.not_established] at hs
  | write x id packet => simp [channels.step, Net.held, h.no_channels] at hs
  | deliver x =>
    simp only [channels.step] at hs
    split at hs
    · rename_i hstage hwire
      exact absurd hstage h.not_established
    · cases hs
  | accept x =>
    have hnew : (n.ends x)._channels_new = [] := by
      rcases h.stage x with hx | ⟨mine, hx⟩ <;> rw [hx]
    simp [channels.step, hnew] at hs
  | read x id | destroy x id => simp [channels.step, Net.held, h.no_channels] at hs

theorem Sound.right (h : Sound v char_signed n) : Right v n := by
  rcases h with h | ⟨s, waits, hinv, rfl, hawaits⟩
  · exact h.right
  · exact pending_right hinv hawaits

theorem Sound.step (h : Sound v char_signed n) (hok : Admitted char_signed n a)
    (hlate : ¬Late n a) (hs : channels.step v char_signed n a = some n') :
    Sound v char_signed n' := by
  rcases h with h | h
  · exact h.step hok.2 hs
  · exact Or.inr (h.step hok.1 hlate hs)

theorem Sound.late (h : Sound v char_signed n) (hlate : Late n a)
    (hs : channels.step v char_signed n a = some n') : ¬Right v n' := by
  rcases h with h | h
  · cases a with try exact absurd hlate id
    | deliver x =>
      simp only [channels.step] at hs
      split at hs
      · rename_i hstage hwire
        exact absurd hstage h.not_established
      · cases hs
  · exact h.late hlate hs

end

/-- Two ends do not mix their channels as long as no packet comes for a channel that was destroyed
by the end that did not open it. -/
theorem channels_do_not_mix_unless_a_packet_is_late (v : Version) (char_signed : Side → Bool)
    {actions : List Action} {n : Net}
    (hrun : Run (step v char_signed) (Admitted char_signed) {} actions n) :
    (∀ done t, done <+: actions → Run (step v char_signed) (Admitted char_signed) {} done t →
      Right v t) ↔
      Run (step v char_signed) (fun t a => Admitted char_signed t a ∧ ¬Late t a) {} actions n :=
  hrun.always_iff (Or.inl Rolling.start) (fun _ => Sound.right)
    (fun _ _ _ h hok => h.step hok.1 hok.2) fun _ _ _ h hok hlate hs =>
      h.late (by_contra fun hnot => hlate ⟨hok, hnot⟩) hs

instance (n : Net) (id : Int) : Decidable (Dead n id) :=
  decidable_of_iff
    (((n.ends .alice)._channels id = none ∧ ∀ p ∈ n.wire .alice, ∀ l ∈ p.link, l.id ≠ id) ∧
      (n.ends .bob)._channels id = none ∧ ∀ p ∈ n.wire .bob, ∀ l ∈ p.link, l.id ≠ id)
    ⟨fun h x => by cases x; exacts [h.1, h.2], fun h => ⟨h .alice, h .bob⟩⟩

instance (n : Net) : (a : Action) → Decidable (Provided n a)
  | .create x =>
    inferInstanceAs (Decidable (n.used x (n.ends x)._id_current = true →
      Dead n (n.ends x)._id_current))
  | .write x id _ =>
    inferInstanceAs (Decidable (∀ c ∈ (n.ends x)._channels id, n.closed x.peer c.link = false))
  | .roll _ _ | .compare _ | .deliver _ | .accept _ | .read _ _ | .destroy _ _ => isTrue trivial

instance (char_signed : Side → Bool) (mine his : UInt8) :
    Decidable (Comparable char_signed mine his) :=
  inferInstanceAs (Decidable (_ ∨ _ ∨ _))

instance (char_signed : Side → Bool) (n : Net) (a : Action) : Decidable (Fair char_signed n a) := by
  unfold Fair
  split
  · split <;> infer_instance
  · infer_instance

instance (n : Net) (a : Action) : Decidable (Late n a) := by
  unfold Late
  split
  · split <;> infer_instance
  · infer_instance

instance (char_signed : Side → Bool) (n : Net) (a : Action) :
    Decidable (Admitted char_signed n a) :=
  inferInstanceAs (Decidable (_ ∧ _))

/-- Rolls that are equal and rolls that differ, then a channel that is used in both directions. -/
theorem a_channel_is_used_in_both_directions :
    ∃ n, Right ⟨0, 3, 0⟩ n ∧ (n.ends .bob)._master = true ∧
      ((n.ends .bob)._channels (-1)).map Channel.read = some [[1, 2], [3]] ∧
        (n.ends .alice)._channels (-1) = none := by
  have hrun : ((exec (step ⟨0, 3, 0⟩ fun _ => true)
      (fun t a => Admitted (fun _ => true) t a ∧ ¬Late t a) {}
      [.roll .alice 5, .roll .bob 5, .compare .alice, .roll .alice 1, .compare .bob, .roll .bob 2,
        .compare .alice, .create .alice, .write .alice (-1) [1, 2], .write .alice (-1) [3],
        .compare .bob, .deliver .bob, .deliver .bob, .accept .bob, .read .bob (-1),
        .read .bob (-1), .write .bob (-1) [4], .deliver .alice, .read .alice (-1),
        .destroy .alice (-1)]).map fun n =>
          ((n.ends .bob)._master, ((n.ends .bob)._channels (-1)).map Channel.read,
            ((n.ends .alice)._channels (-1)).map Channel.read)) =
              some (true, some [[1, 2], [3]], none) := by
    decide +kernel
  obtain ⟨n, hn, hread⟩ := Run.of_exec_map hrun
  have hany := hn.mono fun _ _ h => h.1
  simp only [Prod.mk.injEq, Option.map_eq_none_iff] at hread
  exact ⟨n, (channels_do_not_mix_unless_a_packet_is_late _ _ hany).mpr hn _ n List.prefix_rfl hany,
    hread⟩

/-- Bob destroys the channel after the first of two packets, and accepts the second as another
channel. -/
theorem a_late_packet_opens_its_channel_again :
    ¬∀ (v : Version) (char_signed : Side → Bool) (actions : List Action) (n : Net),
      Run (step v char_signed) (Admitted char_signed) {} actions n → Right v n := by
  intro h
  have hrun : ((exec (step ⟨0, 3, 0⟩ fun _ => true) (Admitted fun _ => true) {}
      [.roll .alice 2, .roll .bob 1, .compare .alice, .compare .bob, .create .alice,
        .write .alice 1 [7], .write .alice 1 [8], .deliver .bob, .accept .bob, .destroy .bob 1,
        .deliver .bob]).map fun n =>
          (((n.ends .bob)._channels 1).map fun c =>
            (c.read ++ c._packets ++ flying ⟨0, 3, 0⟩ (n.wire .bob) c.link,
              n.sent .alice c.link))) = some (some ([[8]], [[7], [8]])) := by
    decide +kernel
  obtain ⟨n, hn, hpackets⟩ := Run.of_exec_map hrun
  obtain ⟨c, hc, heq⟩ := Option.map_eq_some_iff.mp hpackets
  rw [Prod.mk.injEq] at heq
  have hexact := (h _ _ _ n hn).exact .bob 1 c hc
  rw [heq.1] at hexact
  have hsent := hexact.trans heq.2
  cases hsent

end elle.protocol.channels
