-- The laws of channels once the handshake is over: the numbers in use are those of one link
-- each, and what an end received of a link and what is on its way to it is what the peer wrote.
import Memo.Channels

open ops codec runs elle.binary

namespace elle.protocol.channels

/-! ## The two sides -/

@[simp] theorem Side.peer_peer (x : Side) : x.peer.peer = x := by
  cases x <;> rfl

@[simp] theorem Side.peer_ne (x : Side) : x.peer ≠ x := by
  cases x <;> decide

@[simp] theorem Side.ne_peer (x : Side) : x ≠ x.peer := x.peer_ne.symm

theorem Side.eq_or_peer (x y : Side) : y = x ∨ y = x.peer := by
  cases x <;> cases y <;> simp [peer]

theorem Side.eq_peer_iff {x y : Side} : y = x.peer ↔ y ≠ x := by
  cases x <;> cases y <;> simp [peer]

/-! ## Packets of one link -/

@[simp] theorem flying_nil (v : Version) (l : Link) : flying v [] l = [] := rfl

theorem flying_append (v : Version) (ps ps' : List Packet) (l : Link) :
    flying v (ps ++ ps') l = flying v ps l ++ flying v ps' l := List.filterMap_append

theorem flying_self (v : Version) {l : Link} (h : IsInt l.id) (packet : Bytes)
    (ps : List Packet) :
    flying v (⟨header v l.id ++ packet, some l⟩ :: ps) l = packet :: flying v ps l := by
  obtain ⟨i, hpop, -⟩ := header_read v h packet
  simp [flying, hpop]

theorem flying_other (v : Version) {l l' : Link} (h : l' ≠ l) (bytes : Bytes)
    (ps : List Packet) : flying v (⟨bytes, some l'⟩ :: ps) l = flying v ps l := by
  simp [flying, h]

theorem flying_none (v : Version) {l : Link} {ps : List Packet}
    (h : ∀ p ∈ ps, p.link ≠ some l) : flying v ps l = [] := by
  unfold flying
  rw [List.filterMap_eq_nil_iff]
  intro p hp
  rw [if_neg (h p hp)]

/-! ## The channel of a link -/

/-- The channel of an end that is of a link. -/
def end_of (n : Net) (x : Side) (l : Link) : Option Channel :=
  ((n.ends x)._channels l.id).filter fun c => c.link = l

theorem end_of_eq_some {n : Net} {x : Side} {l : Link} {c : Channel} :
    end_of n x l = some c ↔ (n.ends x)._channels l.id = some c ∧ c.link = l := by
  simp [end_of, Option.filter_eq_some_iff]

/-- A link that a channel or a packet on its way is of. -/
def InUse (n : Net) (l : Link) : Prop :=
  ∃ x, (∃ c, end_of n x l = some c) ∨ ∃ p ∈ n.wire x, p.link = some l

/-- A number that the master gives, or the other end. -/
def Own (master : Bool) (id : Int) : Prop := IsInt id ∧ if master then 0 < id else id < 0

theorem Own.eq {m m' : Bool} {id : Int} (h : Own m id) (h' : Own m' id) : m = m' := by
  unfold Own at h h'
  cases m <;> cases m' <;> simp at h h' ⊢ <;> omega

theorem Own.ne_zero {m : Bool} {id : Int} (h : Own m id) : id ≠ 0 := by
  unfold Own at h
  cases m <;> simp at h <;> omega

theorem id_generate_own {s : ChanneledStream} (h : Own s._master s._id_current) :
    Own s._master s._id_generate.2._id_current := by
  unfold Own IsInt at *
  simp only [ChanneledStream._id_generate, to_int, Int.bmod_def]
  cases hm : s._master
  all_goals
    simp only [hm] at h ⊢
    simp at h ⊢
    split_ifs <;> omega

/-- The packets of a link, seen from an end. The peer opened the channel and this end has it from
its first packet on. After it was destroyed nothing is asked of the end that opened it. -/
def Flow (v : Version) (n : Net) (x : Side) (l : Link) : Prop :=
  match end_of n x l with
  | some c =>
    n.closed x l = false ∧
      c.read ++ c._packets ++ flying v (n.wire x) l = n.sent x.peer l ∧
        (l.opener = x.peer → l ≠ .default → c.read ++ c._packets ≠ [])
  | none =>
    l.opener = x.peer → l ≠ .default →
      if n.closed x l then
        ∃ got, got ≠ [] ∧ got ++ flying v (n.wire x) l = n.sent x.peer l
      else
        flying v (n.wire x) l = n.sent x.peer l

theorem Flow.alive {v : Version} {n : Net} {x : Side} {l : Link} {c : Channel}
    (h : Flow v n x l) (hc : end_of n x l = some c) :
    n.closed x l = false ∧
      c.read ++ c._packets ++ flying v (n.wire x) l = n.sent x.peer l ∧
        (l.opener = x.peer → l ≠ .default → c.read ++ c._packets ≠ []) := by
  unfold Flow at h
  rw [hc] at h
  exact h

theorem Flow.absent {v : Version} {n : Net} {x : Side} {l : Link} (h : Flow v n x l)
    (hc : end_of n x l = none) (hopener : l.opener = x.peer) (hd : l ≠ .default) :
    if n.closed x l then
      ∃ got, got ≠ [] ∧ got ++ flying v (n.wire x) l = n.sent x.peer l
    else
      flying v (n.wire x) l = n.sent x.peer l := by
  unfold Flow at h
  rw [hc] at h
  exact h hopener hd

theorem Flow.of_alive {v : Version} {n : Net} {x : Side} {l : Link} {c : Channel}
    (hc : end_of n x l = some c) (h : n.closed x l = false ∧
      c.read ++ c._packets ++ flying v (n.wire x) l = n.sent x.peer l ∧
        (l.opener = x.peer → l ≠ .default → c.read ++ c._packets ≠ [])) : Flow v n x l := by
  unfold Flow
  rw [hc]
  exact h

theorem Flow.of_absent {v : Version} {n : Net} {x : Side} {l : Link} (hc : end_of n x l = none)
    (h : l.opener = x.peer → l ≠ .default →
      if n.closed x l then
        ∃ got, got ≠ [] ∧ got ++ flying v (n.wire x) l = n.sent x.peer l
      else
        flying v (n.wire x) l = n.sent x.peer l) : Flow v n x l := by
  unfold Flow
  rw [hc]
  exact h

theorem Flow.append {v : Version} {n n' : Net} {x : Side} {l : Link} {packets : List Bytes}
    (h : Flow v n x l) (hend : end_of n' x l = end_of n x l)
    (hflying : flying v (n'.wire x) l = flying v (n.wire x) l ++ packets)
    (hsent : n'.sent x.peer l = n.sent x.peer l ++ packets)
    (hclosed : n'.closed x l = n.closed x l) : Flow v n' x l := by
  cases hc : end_of n x l with
  | some c =>
    obtain ⟨hopen, hexact, hnonempty⟩ := h.alive hc
    refine Flow.of_alive (hend.trans hc) ⟨hclosed.trans hopen, ?_, hnonempty⟩
    rw [hflying, hsent, ← hexact]
    simp
  | none =>
    refine Flow.of_absent (hend.trans hc) fun hopener hd => ?_
    have habsent := h.absent hc hopener hd
    rw [hclosed]
    split_ifs at habsent ⊢ with hlater
    · obtain ⟨got, hgot, hexact⟩ := habsent
      refine ⟨got, hgot, ?_⟩
      rw [hflying, hsent, ← hexact, List.append_assoc]
    · rw [hflying, hsent, habsent]

/-- What holds once both ends are established. -/
structure Inv (v : Version) (n : Net) : Prop where
  stage : ∀ x, (n.ends x).stage = .established
  masters : ∀ x, (n.ends x.peer)._master = !(n.ends x)._master
  current : ∀ x, Own (n.ends x)._master (n.ends x)._id_current
  tagged : ∀ x, ∀ p ∈ n.wire x, ∃ l packet, p = ⟨header v l.id ++ packet, some l⟩
  linked : ∀ x id c, (n.ends x)._channels id = some c → c.link.id = id
  start : ∀ x, ∃ c, end_of n x .default = some c
  given : ∀ l, InUse n l → l ≠ .default → Own (n.ends l.opener)._master l.id ∧
    n.used l.opener l.id = true ∧ l.serial ≤ n.serial l.opener
  unique : ∀ l l', InUse n l → InUse n l' → l.id = l'.id → l = l'
  unopened : ∀ x l, n.serial l.opener < l.serial → n.closed x l = false ∧ n.sent x l = []
  flow : ∀ x l, Flow v n x l

namespace Inv

variable {v : Version} {n : Net} {x : Side} {l : Link} {id : Int} {c : Channel}

theorem in_use_channel (h : Inv v n) (hc : (n.ends x)._channels id = some c) : InUse n c.link := by
  refine ⟨x, Or.inl ⟨c, end_of_eq_some.mpr ⟨?_, rfl⟩⟩⟩
  rw [h.linked x id c hc]
  exact hc

theorem is_int (h : Inv v n) (hl : InUse n l) : IsInt l.id := by
  by_cases hd : l = .default
  · rw [hd]
    exact ⟨by decide, by decide⟩
  · exact (h.given l hl hd).1.1

theorem foreign_iff (h : Inv v n) (hl : InUse n l) (hd : l ≠ .default) :
    (n.ends x).Foreign l.id ↔ l.opener = x.peer := by
  have hown := (h.given l hl hd).1
  have hpeer := h.masters x
  unfold ChanneledStream.Foreign
  unfold Own at hown
  rcases Side.eq_or_peer x l.opener with hx | hx
  · rw [hx] at hown ⊢
    cases hm : (n.ends x)._master <;> simp [hm] at hown ⊢ <;> omega
  · rw [hx, hpeer] at hown
    rw [hx]
    cases hm : (n.ends x)._master <;> simp [hm] at hown ⊢ <;> omega

theorem fresh (h : Inv v n)
    (hdead : n.used x (n.ends x)._id_current = true → Dead n (n.ends x)._id_current)
    (hl : InUse n l) : l.id ≠ (n.ends x)._id_current := by
  intro hid
  have hne : l ≠ .default := by
    intro hd
    rw [hd] at hid
    exact (h.current x).ne_zero hid.symm
  obtain ⟨hown, hused, -⟩ := h.given l hl hne
  have hopener : l.opener = x := by
    by_contra hx
    have hmaster := hown.eq (hid ▸ h.current x)
    rw [Side.eq_peer_iff.mpr hx, h.masters x] at hmaster
    simp at hmaster
  rw [hopener, hid] at hused
  obtain ⟨y, hy⟩ := hl
  obtain ⟨hchannel, hwire⟩ := hdead hused y
  rcases hy with ⟨c, hc⟩ | ⟨p, hp, hpl⟩
  · rw [end_of_eq_some, hid, hchannel] at hc
    cases hc.1
  · exact hwire p hp l hpl hid

theorem right (h : Inv v n) : Right v n where
  handshake x := by simp [h.stage x]
  one_master _ := by
    have hbob := h.masters .alice
    intro heq
    rw [heq] at hbob
    simp [Side.peer] at hbob
  fresh x _ hdead := by
    rw [Option.eq_none_iff_forall_ne_some]
    intro c hc
    exact h.fresh hdead (h.in_use_channel hc) (h.linked x _ c hc)
  counterparts id c c' hc hc' := by
    apply h.unique _ _ (h.in_use_channel hc) (h.in_use_channel hc')
    rw [h.linked _ id c hc, h.linked _ id c' hc']
  apart x id id' c c' hc hc' hlink := by
    rw [← h.linked x id c hc, hlink, h.linked x id' c' hc']
  exact x id c hc := by
    have hend : end_of n x c.link = some c := by
      rw [end_of_eq_some, h.linked x id c hc]
      exact ⟨hc, rfl⟩
    have hflow := h.flow x c.link
    unfold Flow at hflow
    rw [hend] at hflow
    exact hflow.2.1

end Inv

/-! ## Steps on one link -/

/-- What a step changes of an end: the channel at the number of a link, the packets that wait for
the end, and whether it closed this link. -/
structure Touches (n n' : Net) (x : Side) (l : Link) (new : Option Channel)
    (ps : List Packet) : Prop where
  stage : ∀ y, (n'.ends y).stage = (n.ends y).stage
  master : ∀ y, (n'.ends y)._master = (n.ends y)._master
  current : ∀ y, (n'.ends y)._id_current = (n.ends y)._id_current
  table : ∀ y id, (n'.ends y)._channels id =
    if y = x ∧ id = l.id then new else (n.ends y)._channels id
  wire : n'.wire = Function.update n.wire x ps
  serial : n'.serial = n.serial
  used : n'.used = n.used
  sent : n'.sent = n.sent
  closed : ∀ y k, ¬(y = x ∧ k = l) → n'.closed y k = n.closed y k

theorem Flow.congr {v : Version} {n n' : Net} {x : Side} {l : Link} (h : Flow v n x l)
    (hend : end_of n' x l = end_of n x l)
    (hflying : flying v (n'.wire x) l = flying v (n.wire x) l)
    (hsent : n'.sent x.peer l = n.sent x.peer l) (hclosed : n'.closed x l = n.closed x l) :
    Flow v n' x l := by
  unfold Flow at h ⊢
  rw [hend, hflying, hsent, hclosed]
  exact h

theorem end_of_change {n n' : Net} {x : Side} {l : Link} {new : Option Channel}
    (hchannels : ∀ y id, (n'.ends y)._channels id =
      if y = x ∧ id = l.id then new else (n.ends y)._channels id)
    (hold : ∀ c, (n.ends x)._channels l.id = some c → c.link = l)
    (hnew : ∀ c, new = some c → c.link = l) (y : Side) (k : Link) :
    end_of n' y k = if y = x ∧ k = l then new else end_of n y k := by
  unfold end_of
  rw [hchannels]
  by_cases hy : y = x
  · by_cases hk : k = l
    · rw [if_pos ⟨hy, by rw [hk]⟩, if_pos ⟨hy, hk⟩, hk]
      cases new with
      | none => rfl
      | some c => simp [hnew c rfl]
    · have hright : ¬(y = x ∧ k = l) := fun hboth => hk hboth.2
      rw [if_neg hright]
      by_cases hid : k.id = l.id
      · -- neither the old channel at this number nor the new one is of the other link
        rw [if_pos ⟨hy, hid⟩, hid, hy]
        have hn : new.filter (fun c => c.link = k) = none := by
          rw [Option.filter_eq_none_iff]
          intro c hc
          simp [hnew c hc, Ne.symm hk]
        have ho : ((n.ends x)._channels l.id).filter (fun c => c.link = k) = none := by
          rw [Option.filter_eq_none_iff]
          intro c hc
          simp [hold c hc, Ne.symm hk]
        rw [hn, ho]
      · have hleft : ¬(y = x ∧ k.id = l.id) := fun hboth => hid hboth.2
        rw [if_neg hleft]
  · have hleft : ¬(y = x ∧ k.id = l.id) := fun hboth => hy hboth.1
    have hright : ¬(y = x ∧ k = l) := fun hboth => hy hboth.1
    rw [if_neg hleft, if_neg hright]

namespace Inv

variable {v : Version} {n n' : Net} {x : Side} {l : Link} {id : Int} {c : Channel}

theorem in_use_wire {p : Packet} (hp : p ∈ n.wire x) (hl : p.link = some l) : InUse n l :=
  ⟨x, Or.inr ⟨p, hp, hl⟩⟩

theorem in_use_end (hc : end_of n x l = some c) : InUse n l := ⟨x, Or.inl ⟨c, hc⟩⟩

theorem link_eq (h : Inv v n) (hl : InUse n l) (hc : (n.ends x)._channels l.id = some c) :
    c.link = l :=
  h.unique _ _ (h.in_use_channel hc) hl (h.linked x _ c hc)

theorem touches (h : Inv v n) {new : Option Channel} {ps : List Packet}
    (ht : Touches n n' x l new ps) (hl : InUse n l) (hnew : ∀ c, new = some c → c.link = l)
    (hdefault : l = .default → new ≠ none) (hps : ∀ p ∈ ps, p ∈ n.wire x)
    (hother : ∀ k, k ≠ l → flying v ps k = flying v (n.wire x) k)
    (hunopened : n'.closed x l = true → l.serial ≤ n.serial l.opener)
    (hflow : Flow v n' x l) : Inv v n' := by
  have hend := end_of_change ht.table (fun c hc => h.link_eq hl hc) hnew
  have hwire : ∀ y, ∀ p ∈ n'.wire y, p ∈ n.wire y := by
    intro y p hp
    rw [ht.wire] at hp
    by_cases hy : y = x
    · rw [hy, Function.update_self] at hp
      exact hy ▸ hps p hp
    · rw [Function.update_of_ne hy] at hp
      exact hp
  have huse : ∀ k, InUse n' k → InUse n k := by
    rintro k ⟨y, ⟨c, hc⟩ | ⟨p, hp, hpk⟩⟩
    · rw [hend] at hc
      split at hc
      · rename_i hboth
        exact hboth.2 ▸ hl
      · exact in_use_end hc
    · exact in_use_wire (hwire y p hp) hpk
  constructor
  · exact fun y => (ht.stage y).trans (h.stage y)
  · intro y
    rw [ht.master, ht.master, h.masters]
  · intro y
    rw [ht.master, ht.current]
    exact h.current y
  · exact fun y p hp => h.tagged y p (hwire y p hp)
  · intro y id c hc
    rw [ht.table] at hc
    split at hc
    · rename_i hboth
      rw [hnew c hc, hboth.2]
    · exact h.linked y id c hc
  · intro y
    rw [hend]
    split
    · rename_i hboth
      exact Option.ne_none_iff_exists'.mp (hdefault hboth.2.symm)
    · exact h.start y
  · intro k hk hd
    rw [ht.master, ht.used, ht.serial]
    exact h.given k (huse k hk) hd
  · exact fun k k' hk hk' => h.unique k k' (huse k hk) (huse k' hk')
  · intro y k hk
    rw [ht.serial] at hk
    rw [ht.sent]
    by_cases hboth : y = x ∧ k = l
    · obtain ⟨rfl, rfl⟩ := hboth
      refine ⟨Bool.eq_false_iff.mpr fun hclosed => ?_, (h.unopened y k hk).2⟩
      have hle := hunopened hclosed
      omega
    · rw [ht.closed y k hboth]
      exact h.unopened y k hk
  · intro y k
    by_cases hboth : y = x ∧ k = l
    · rw [hboth.1, hboth.2]
      exact hflow
    · apply (h.flow y k).congr
      · rw [hend, if_neg hboth]
      · rw [ht.wire]
        by_cases hy : y = x
        · rw [hy, Function.update_self]
          exact hother k fun hk => hboth ⟨hy, hk⟩
        · rw [Function.update_of_ne hy]
      · rw [ht.sent]
      · exact ht.closed y k hboth

end Inv

/-! ## Each step -/

section

variable {n : Net} {x : Side} {l : Link} {new : Option Channel} {ps : List Packet}

theorem take_self (n : Net) (x : Side) : n.take x (n.wire x) = n := by
  unfold Net.take
  rw [Function.update_eq_self]

theorem touches_put (news : List Int) {closed : Side → Link → Bool}
    (hclosed : ∀ y k, ¬(y = x ∧ k = l) → closed y k = n.closed y k) :
    Touches n { (n.take x ps).put x { n.ends x with
        _channels := Function.update (n.ends x)._channels l.id new
        _channels_new := news } with
      closed } x l new ps := by
  constructor
  · intro y
    by_cases hy : y = x <;> simp [Net.put, Net.take, hy]
  · intro y
    by_cases hy : y = x <;> simp [Net.put, Net.take, hy]
  · intro y
    by_cases hy : y = x <;> simp [Net.put, Net.take, hy]
  · intro y id
    by_cases hy : y = x
    · by_cases hid : id = l.id <;> simp [Net.put, Net.take, hy, hid]
    · simp [Net.put, Net.take, hy]
  · rfl
  · rfl
  · rfl
  · rfl
  · exact hclosed

theorem put_put (s s' : ChanneledStream) : (n.put x s).put x s' = n.put x s' := by
  unfold Net.put
  rw [Function.update_idem]

theorem put_channel_none {id : Int} (h : (n.ends x)._channels id = none) :
    n.put_channel x id none = n := by
  unfold Net.put_channel Net.put
  rw [← h, Function.update_eq_self, Function.update_eq_self]

variable {packet : Bytes} {v : Version} {p : Packet}

theorem read_thread_live {i : Nat} {c : Channel} (hpop : uint32_pop v p.bytes = (.ok i, packet))
    (hc : (n.ends x)._channels (to_int i) = some c) :
    n._read_thread v x p =
      n.put_channel x (to_int i) (some { c with _packets := c._packets ++ [packet] }) := by
  simp only [Net._read_thread, hpop, hc]

theorem read_thread_new {i : Nat} (hpop : uint32_pop v p.bytes = (.ok i, packet))
    (hc : (n.ends x)._channels (to_int i) = none) (hforeign : (n.ends x).Foreign (to_int i)) :
    n._read_thread v x p =
      n.put x { n.ends x with
        _channels := Function.update (n.ends x)._channels (to_int i)
          (some { link := p.link.getD .default, _packets := [packet] })
        _channels_new := (n.ends x)._channels_new ++ [to_int i] } := by
  simp only [Net._read_thread, hpop, hc, if_pos hforeign, Net.put_channel, put_put]
  simp [Net.put]

theorem read_thread_orphan {i : Nat} (hpop : uint32_pop v p.bytes = (.ok i, packet))
    (hc : (n.ends x)._channels (to_int i) = none) (hforeign : ¬(n.ends x).Foreign (to_int i)) :
    n._read_thread v x p = n := by
  simp only [Net._read_thread, hpop, hc, if_neg hforeign]

theorem touches_put_channel :
    Touches n ((n.take x ps).put_channel x l.id new) x l new ps :=
  touches_put (n.ends x)._channels_new fun _ _ _ => rfl

end

namespace Inv

variable {v : Version} {n n' : Net} {x : Side} {l : Link} {c : Channel} {ps : List Packet}

theorem end_of_none (hnone : (n.ends x)._channels l.id = none) : end_of n x l = none := by
  unfold end_of
  rw [hnone]
  rfl

theorem end_of_live (h : Inv v n) (hl : InUse n l) (hc : (n.ends x)._channels l.id = some c) :
    end_of n x l = some c := end_of_eq_some.mpr ⟨hc, h.link_eq hl hc⟩

theorem replace (h : Inv v n) {c' : Channel} (hc : end_of n x l = some c) (hlink : c'.link = l)
    (hps : ∀ p ∈ ps, p ∈ n.wire x)
    (hother : ∀ k, k ≠ l → flying v ps k = flying v (n.wire x) k)
    (hsame : c'.read ++ c'._packets ++ flying v ps l =
      c.read ++ c._packets ++ flying v (n.wire x) l)
    (hfirst : c.read ++ c._packets ≠ [] → c'.read ++ c'._packets ≠ []) :
    Inv v ((n.take x ps).put_channel x l.id (some c')) := by
  have hl := in_use_end hc
  have hnew : ∀ c₀, some c' = some c₀ → c₀.link = l := fun c₀ hc₀ => Option.some.inj hc₀ ▸ hlink
  have ht : Touches n ((n.take x ps).put_channel x l.id (some c')) x l (some c') ps :=
    touches_put_channel
  obtain ⟨hopen, hexact, hnonempty⟩ := (h.flow x l).alive hc
  have hend := end_of_change ht.table (fun c hc => h.link_eq hl hc) hnew x l
  rw [if_pos ⟨rfl, rfl⟩] at hend
  apply h.touches ht hl hnew (fun _ => Option.some_ne_none c') hps hother
  · intro hclosed
    have hopen' : n.closed x l = true := hclosed
    rw [hopen] at hopen'
    cases hopen'
  · refine Flow.of_alive hend ⟨hopen, ?_, fun ho hd => hfirst (hnonempty ho hd)⟩
    rw [ht.wire, Function.update_self, hsame]
    exact hexact

theorem deliver (h : Inv v n) {p : Packet} (hwire : n.wire x = p :: ps)
    (hlate : ¬Late n (.deliver x)) : Inv v ((n.take x ps)._read_thread v x p) := by
  have hp : p ∈ n.wire x := by simp [hwire]
  obtain ⟨l, packet, rfl⟩ := h.tagged x p hp
  have hl : InUse n l := in_use_wire hp rfl
  have hps : ∀ p ∈ ps, p ∈ n.wire x := by
    intro p hp
    simp [hwire, hp]
  have hother : ∀ k, k ≠ l → flying v ps k = flying v (n.wire x) k := by
    intro k hk
    rw [hwire, flying_other v hk.symm]
  have hself : flying v (n.wire x) l = packet :: flying v ps l := by
    rw [hwire, flying_self v (h.is_int hl)]
  obtain ⟨i, hpop, hid⟩ := header_read v (h.is_int hl) packet
  cases hc : (n.ends x)._channels l.id with
  | some c =>
    have hlink := h.link_eq hl hc
    rw [read_thread_live hpop (hid ▸ hc), hid]
    refine h.replace (h.end_of_live hl hc) hlink hps hother ?_ ?_
    · simp [hself]
    · simp
  | none =>
    have hd : l ≠ .default := by
      rintro rfl
      obtain ⟨c, hend⟩ := h.start x
      rw [end_of_none hc] at hend
      cases hend
    have hold : ∀ c, (n.ends x)._channels l.id = some c → c.link = l :=
      fun c hc => h.link_eq hl hc
    have hflow := (h.flow x l).absent (end_of_none hc)
    by_cases hforeign : (n.ends x).Foreign l.id
    · -- the first packet of a channel that the peer opened
      have hopener := (h.foreign_iff hl hd).mp hforeign
      have hopen : n.closed x l = false := by
        rw [Bool.eq_false_iff]
        intro hclosed
        apply hlate
        simp [Late, hwire, hopener, hclosed]
      have hsent := hflow hopener hd
      rw [hopen, hself] at hsent
      rw [read_thread_new hpop (hid ▸ hc) (hid ▸ hforeign), hid]
      have ht : Touches n ((n.take x ps).put x { n.ends x with
          _channels := Function.update (n.ends x)._channels l.id
            (some { link := l, _packets := [packet] })
          _channels_new := (n.ends x)._channels_new ++ [l.id] }) x l
            (some { link := l, _packets := [packet] }) ps :=
        touches_put _ fun _ _ _ => rfl
      have hnew : ∀ c : Channel, some { link := l, _packets := [packet] } = some c → c.link = l :=
        fun c hc => Option.some.inj hc ▸ rfl
      have hend := end_of_change ht.table hold hnew x l
      rw [if_pos ⟨rfl, rfl⟩] at hend
      apply h.touches ht hl hnew (fun _ => Option.some_ne_none _) hps hother
      · exact fun _ => (h.given l hl hd).2.2
      · refine Flow.of_alive hend ⟨hopen, ?_, fun _ _ => by simp⟩
        rw [ht.wire, ht.sent, Function.update_self]
        simpa using hsent
    · -- an orphan: this end opened the channel and destroyed it
      have hopener : l.opener ≠ x.peer := fun ho => hforeign ((h.foreign_iff hl hd).mpr ho)
      have hsame : (n.take x ps).put_channel x l.id none = n.take x ps := put_channel_none hc
      have ht : Touches n ((n.take x ps).put_channel x l.id none) x l none ps :=
        touches_put_channel
      rw [hsame] at ht
      rw [read_thread_orphan hpop (hid ▸ hc) (hid ▸ hforeign)]
      have hnew : ∀ c : Channel, none = some c → c.link = l := fun _ hc => by cases hc
      have hend := end_of_change ht.table hold hnew x l
      rw [if_pos ⟨rfl, rfl⟩] at hend
      apply h.touches ht hl hnew (fun hdefault => absurd hdefault hd) hps hother
      · exact fun _ => (h.given l hl hd).2.2
      · exact Flow.of_absent hend fun ho _ => absurd ho hopener

variable {id : Int}

theorem held_eq_some (hheld : n.held x id = some c) :
    (n.ends x)._channels id = some c := by
  unfold Net.held at hheld
  split at hheld
  · cases hheld
  · exact hheld

theorem read (h : Inv v n) {packet : Bytes} {rest : List Bytes}
    (hc : (n.ends x)._channels id = some c) (hpackets : c._packets = packet :: rest) :
    Inv v (n.put_channel x id
      (some { c with read := c.read ++ [packet], _packets := rest })) := by
  have hl := h.in_use_channel hc
  have hid := h.linked x id c hc
  rw [← hid] at hc ⊢
  have hreplace : Inv v ((n.take x (n.wire x)).put_channel x c.link.id
      (some { c with read := c.read ++ [packet], _packets := rest })) :=
    h.replace (h.end_of_live hl hc) rfl (fun _ hp => hp) (fun _ _ => rfl) (by simp [hpackets])
      (by simp)
  rw [take_self] at hreplace
  exact hreplace

theorem destroy (h : Inv v n) (hid0 : id ≠ 0) (hc : (n.ends x)._channels id = some c) :
    Inv v (n.destroy x c id) := by
  have hl := h.in_use_channel hc
  have hid := h.linked x id c hc
  rw [← hid] at hc hid0 ⊢
  have hd : c.link ≠ .default := fun hd => hid0 (by rw [hd]; rfl)
  have hend := h.end_of_live hl hc
  obtain ⟨-, hexact, hnonempty⟩ := (h.flow x c.link).alive hend
  have ht : Touches n (n.destroy x c c.link.id) x c.link none (n.wire x) := by
    have hclosed : ∀ y k, ¬(y = x ∧ k = c.link) →
        (n.destroy x c c.link.id).closed y k = n.closed y k := by
      intro y k hboth
      simp only [Net.destroy]
      by_cases hy : y = x
      · rw [hy, Function.update_self, Function.update_of_ne fun hk => hboth ⟨hy, hk⟩]
        rfl
      · rw [Function.update_of_ne hy]
        rfl
    have hput : Touches n _ x c.link none (n.wire x) :=
      touches_put (n.ends x)._channels_new hclosed
    rw [take_self] at hput
    exact hput
  have hend' := end_of_change ht.table (fun c' hc' => h.link_eq hl hc') (fun _ hn => by cases hn)
    x c.link
  rw [if_pos ⟨rfl, rfl⟩] at hend'
  apply h.touches ht hl (fun _ hn => by cases hn) (fun hdefault => absurd hdefault hd)
    (fun _ hp => hp) (fun _ _ => rfl)
  · exact fun _ => (h.given c.link hl hd).2.2
  · refine Flow.of_absent hend' fun hopener _ => ?_
    have hclosed : (n.destroy x c c.link.id).closed x c.link = true := by
      simp [Net.destroy]
    rw [if_pos hclosed, ht.wire, ht.sent, Function.update_eq_self]
    exact ⟨c.read ++ c._packets, hnonempty hopener hd, hexact⟩

theorem accept (h : Inv v n) (rest : List Int) :
    Inv v (n.put x { n.ends x with _channels_new := rest }) := by
  obtain ⟨c, hc⟩ := h.start x
  have hid := (end_of_eq_some.mp hc).1
  have ht : Touches n ((n.take x (n.wire x)).put x { n.ends x with
      _channels := Function.update (n.ends x)._channels Link.default.id (some c)
      _channels_new := rest }) x .default (some c) (n.wire x) := touches_put rest fun _ _ _ => rfl
  rw [take_self, ← hid, Function.update_eq_self, hid] at ht
  have hl := in_use_end hc
  have hnew : ∀ c', some c = some c' → c'.link = .default :=
    fun c' hc' => Option.some.inj hc' ▸ (end_of_eq_some.mp hc).2
  have hend := end_of_change ht.table (fun c hc => h.link_eq hl hc) hnew x .default
  rw [if_pos ⟨rfl, rfl⟩] at hend
  apply h.touches ht hl hnew (fun _ => Option.some_ne_none c) (fun _ hp => hp) (fun _ _ => rfl)
  · exact fun _ => Nat.zero_le _
  · apply (h.flow x .default).congr
    · rw [hend, hc]
    · rfl
    · rfl
    · rfl

theorem write (h : Inv v n) (hc : (n.ends x)._channels id = some c) (packet : Bytes) :
    Inv v (n.write v x c id packet) := by
  have hl := h.in_use_channel hc
  have hid := h.linked x id c hc
  have hint := h.is_int hl
  rw [← hid]
  generalize hn' : n.write v x c c.link.id packet = n'
  have hends : n'.ends = n.ends := by rw [← hn']; rfl
  have hserial : n'.serial = n.serial := by rw [← hn']; rfl
  have hused : n'.used = n.used := by rw [← hn']; rfl
  have hclosed : n'.closed = n.closed := by rw [← hn']; rfl
  have hwire : n'.wire = Function.update n.wire x.peer
      (n.wire x.peer ++ [⟨header v c.link.id ++ packet, some c.link⟩]) := by rw [← hn']; rfl
  have hsent : n'.sent = Function.update n.sent x
      (Function.update (n.sent x) c.link (n.sent x c.link ++ [packet])) := by rw [← hn']; rfl
  have hend : ∀ y k, end_of n' y k = end_of n y k := fun y k => by rw [end_of, hends]; rfl
  have hwires : ∀ y p, p ∈ n'.wire y →
      p ∈ n.wire y ∨ p = ⟨header v c.link.id ++ packet, some c.link⟩ := by
    intro y p hp
    rw [hwire] at hp
    by_cases hy : y = x.peer
    · simpa [hy] using hp
    · rw [Function.update_of_ne hy] at hp
      exact Or.inl hp
  have huse : ∀ k, InUse n' k → InUse n k := by
    rintro k ⟨y, ⟨c, hc⟩ | ⟨p, hp, hpk⟩⟩
    · rw [hend] at hc
      exact in_use_end hc
    · rcases hwires y p hp with hp | rfl
      · exact in_use_wire hp hpk
      · exact Option.some.inj hpk ▸ hl
  constructor
  · rw [hends]
    exact h.stage
  · rw [hends]
    exact h.masters
  · rw [hends]
    exact h.current
  · intro y p hp
    rcases hwires y p hp with hp | rfl
    · exact h.tagged y p hp
    · exact ⟨c.link, packet, rfl⟩
  · rw [hends]
    exact h.linked
  · intro y
    rw [hend]
    exact h.start y
  · intro k hk hd
    rw [hends, hused, hserial]
    exact h.given k (huse k hk) hd
  · exact fun k k' hk hk' => h.unique k k' (huse k hk) (huse k' hk')
  · intro y k hk
    rw [hserial] at hk
    have hne : k ≠ c.link := by
      rintro rfl
      by_cases hd : c.link = .default
      · rw [hd] at hk
        exact absurd hk (Nat.not_lt_zero _)
      · have hle := (h.given _ hl hd).2.2
        omega
    rw [hclosed, hsent]
    refine ⟨(h.unopened y k hk).1, ?_⟩
    by_cases hy : y = x
    · rw [hy, Function.update_self, Function.update_of_ne hne]
      exact (h.unopened x k hk).2
    · rw [Function.update_of_ne hy]
      exact (h.unopened y k hk).2
  · intro y k
    by_cases hboth : y = x.peer ∧ k = c.link
    · -- one more packet is on its way, and was written
      rw [hboth.1, hboth.2]
      have hflying : flying v (n'.wire x.peer) c.link =
          flying v (n.wire x.peer) c.link ++ [packet] := by
        rw [hwire, Function.update_self, flying_append, flying_self v hint, flying_nil]
      have hwritten : n'.sent x.peer.peer c.link = n.sent x.peer.peer c.link ++ [packet] := by
        rw [hsent, Side.peer_peer, Function.update_self, Function.update_self]
      exact (h.flow x.peer c.link).append (hend _ _) hflying hwritten (by rw [hclosed])
    · apply (h.flow y k).congr (hend y k)
      · rw [hwire]
        by_cases hy : y = x.peer
        · have hk : k ≠ c.link := fun hk => hboth ⟨hy, hk⟩
          rw [hy, Function.update_self, flying_append, flying_other v hk.symm, flying_nil,
            List.append_nil]
        · rw [Function.update_of_ne hy]
      · rw [hsent]
        by_cases hy : y.peer = x
        · have hk : k ≠ c.link := fun hk => hboth ⟨by rw [← hy, Side.peer_peer], hk⟩
          rw [hy, Function.update_self, Function.update_of_ne hk]
        · rw [Function.update_of_ne hy]
      · rw [hclosed]

theorem create_table (hfree : (n.ends x)._channels (n.ends x)._id_current = none)
    (hn' : n.create x = some n') (y : Side) (id : Int) :
    (n'.ends y)._channels id =
      if y = x ∧ id = (n.ends x)._id_current then
        some { link := ⟨x, n.serial x + 1, (n.ends x)._id_current⟩ }
      else (n.ends y)._channels id := by
  simp only [Net.create, ChanneledStream._id_generate, hfree, Option.some.injEq] at hn'
  subst hn'
  by_cases hy : y = x
  · by_cases hid : id = (n.ends x)._id_current <;> simp [Net.put_channel, Net.put, hy, hid]
  · simp [Net.put_channel, Net.put, hy]

theorem create_ends (hfree : (n.ends x)._channels (n.ends x)._id_current = none)
    (hn' : n.create x = some n') (y : Side) :
    (n'.ends y).stage = (n.ends y).stage ∧ (n'.ends y)._master = (n.ends y)._master ∧
      (n'.ends y)._id_current =
        if y = x then (n.ends x)._id_generate.2._id_current else (n.ends y)._id_current := by
  simp only [Net.create, ChanneledStream._id_generate, hfree, Option.some.injEq] at hn'
  subst hn'
  by_cases hy : y = x <;> simp [Net.put_channel, Net.put, ChanneledStream._id_generate, hy]

theorem create_rest (hfree : (n.ends x)._channels (n.ends x)._id_current = none)
    (hn' : n.create x = some n') :
    n'.wire = n.wire ∧ n'.sent = n.sent ∧ n'.closed = n.closed ∧
      n'.serial = Function.update n.serial x (n.serial x + 1) ∧
      n'.used = Function.update n.used x
        (Function.update (n.used x) (n.ends x)._id_current true) := by
  simp only [Net.create, ChanneledStream._id_generate, hfree, Option.some.injEq] at hn'
  subst hn'
  exact ⟨rfl, rfl, rfl, rfl, rfl⟩

theorem create (h : Inv v n)
    (hdead : n.used x (n.ends x)._id_current = true → Dead n (n.ends x)._id_current)
    (hn' : n.create x = some n') : Inv v n' := by
  have hfree := h.right.fresh x (h.stage x) hdead
  have hends := create_ends hfree hn'
  have htable := create_table hfree hn'
  obtain ⟨hwire, hsent, hclosed, hserial, hused⟩ := create_rest hfree hn'
  have hfresh : ∀ k, InUse n k → k.id ≠ (n.ends x)._id_current := fun k hk => h.fresh hdead hk
  have hown := h.current x
  have hgenerate := id_generate_own hown
  generalize (n.ends x)._id_generate.2._id_current = next at hends hgenerate
  generalize (n.ends x)._id_current = id at *
  generalize hl : (⟨x, n.serial x + 1, id⟩ : Link) = l at *
  obtain rfl : l.opener = x := by rw [← hl]
  obtain rfl : l.id = id := by rw [← hl]
  have hls : l.serial = n.serial l.opener + 1 := by rw [← hl]
  clear hl
  have hnever : ∀ y, n.closed y l = false ∧ n.sent y l = [] :=
    fun y => h.unopened y l (by omega)
  have hnone : ∀ y, end_of n y l = none := by
    intro y
    rw [Option.eq_none_iff_forall_ne_some]
    exact fun c hc => hfresh l (in_use_end hc) rfl
  have hsilent : ∀ y, flying v (n.wire y) l = [] :=
    fun y => flying_none v fun p hp hpl => hfresh l (in_use_wire hp hpl) rfl
  have hend := end_of_change (l := l) htable (fun c hc => by rw [hfree] at hc; cases hc)
    fun c hc => Option.some.inj hc ▸ rfl
  have huse : ∀ k, InUse n' k → k = l ∨ InUse n k := by
    rintro k ⟨y, ⟨c, hc⟩ | ⟨p, hp, hpk⟩⟩
    · rw [hend] at hc
      split at hc
      · rename_i hboth
        exact Or.inl hboth.2
      · exact Or.inr (in_use_end hc)
    · exact Or.inr (in_use_wire (hwire ▸ hp) hpk)
  have hmaster : ∀ y, (n'.ends y)._master = (n.ends y)._master := fun y => (hends y).2.1
  have hle : ∀ y, n.serial y ≤ n'.serial y := by
    intro y
    rw [hserial]
    by_cases hy : y = l.opener
    · rw [hy, Function.update_self]
      omega
    · rw [Function.update_of_ne hy]
  constructor
  · exact fun y => (hends y).1.trans (h.stage y)
  · intro y
    rw [hmaster, hmaster, h.masters]
  · intro y
    rw [hmaster, (hends y).2.2]
    split
    · rename_i hy
      rw [hy]
      exact hgenerate
    · exact h.current y
  · rw [hwire]
    exact h.tagged
  · intro y id c hc
    rw [htable] at hc
    split at hc
    · rename_i hboth
      rw [← Option.some.inj hc, hboth.2]
    · exact h.linked y id c hc
  · intro y
    rw [hend]
    split
    · exact ⟨_, rfl⟩
    · exact h.start y
  · intro k hk hd
    rw [hmaster]
    rcases huse k hk with rfl | hk
    · refine ⟨hown, ?_, ?_⟩
      · rw [hused, Function.update_self, Function.update_self]
      · rw [hserial, Function.update_self, hls]
    · obtain ⟨hown', hused', hle'⟩ := h.given k hk hd
      refine ⟨hown', ?_, hle'.trans (hle _)⟩
      rw [hused]
      by_cases hy : k.opener = l.opener
      · rw [hy, Function.update_self]
        rw [hy] at hused'
        simp [Function.update_apply, hused']
      · rw [Function.update_of_ne hy]
        exact hused'
  · intro k k' hk hk' hids
    rcases huse k hk with rfl | hk <;> rcases huse k' hk' with rfl | hk'
    · rfl
    · exact absurd hids.symm (hfresh k' hk')
    · exact absurd hids (hfresh k hk)
    · exact h.unique k k' hk hk' hids
  · intro y k hk
    rw [hclosed, hsent]
    exact h.unopened y k ((hle _).trans_lt hk)
  · intro y k
    by_cases hk : k = l
    · rw [hk]
      have hlast := hend y l
      by_cases hy : y = l.opener
      · rw [if_pos ⟨hy, rfl⟩] at hlast
        refine Flow.of_alive hlast ⟨?_, ?_, fun hopener => ?_⟩
        · rw [hclosed]
          exact (hnever y).1
        · rw [hwire, hsent, hsilent, (hnever y.peer).2]
          rfl
        · rw [hy] at hopener
          exact absurd hopener (Side.ne_peer _)
      · rw [if_neg fun hboth => hy hboth.1, hnone] at hlast
        refine Flow.of_absent hlast fun _ _ => ?_
        rw [hclosed, (hnever y).1, if_neg Bool.false_ne_true, hwire, hsent, hsilent,
          (hnever y.peer).2]
    · apply (h.flow y k).congr
      · rw [hend, if_neg fun hboth => hk hboth.2]
      · rw [hwire]
      · rw [hsent]
      · rw [hclosed]

theorem step {char_signed : Side → Bool} (h : Inv v n) {a : Action} (hok : Provided n a)
    (hlate : ¬Late n a) (hs : channels.step v char_signed n a = some n') : Inv v n' := by
  cases a with
  | roll x mine => simp [channels.step, h.stage x] at hs
  | compare x => simp [channels.step, h.stage x] at hs
  | create x =>
    simp only [channels.step, h.stage x, if_true] at hs
    exact h.create hok hs
  | write x id packet =>
    simp only [channels.step, Option.map_eq_some_iff] at hs
    obtain ⟨c, hheld, rfl⟩ := hs
    exact h.write (held_eq_some hheld) packet
  | deliver x =>
    cases hwire : n.wire x with
    | nil => simp [channels.step, h.stage x, hwire] at hs
    | cons p rest =>
      simp only [channels.step, h.stage x, hwire, Option.some.injEq] at hs
      subst hs
      exact h.deliver hwire hlate
  | accept x =>
    cases hnew : (n.ends x)._channels_new with
    | nil => simp [channels.step, hnew] at hs
    | cons id rest =>
      simp only [channels.step, hnew, Option.some.injEq] at hs
      subst hs
      exact h.accept rest
  | read x id =>
    simp only [channels.step, Option.bind_eq_some_iff] at hs
    obtain ⟨c, hheld, hs⟩ := hs
    cases hpackets : c._packets with
    | nil => simp [hpackets] at hs
    | cons packet rest =>
      simp only [hpackets, Option.some.injEq] at hs
      subst hs
      exact h.read (held_eq_some hheld) hpackets
  | destroy x id =>
    simp only [channels.step] at hs
    split_ifs at hs with hid
    rw [Option.map_eq_some_iff] at hs
    obtain ⟨c, hheld, rfl⟩ := hs
    exact h.destroy hid (held_eq_some hheld)

theorem late {char_signed : Side → Bool} (h : Inv v n) (hlate : Late n (.deliver x))
    (hs : channels.step v char_signed n (.deliver x) = some n') :
    ∃ id c, (n'.ends x)._channels id = some c ∧
      c.read ++ c._packets ++ flying v (n'.wire x) c.link ≠ n'.sent x.peer c.link := by
  cases hwire : n.wire x with
  | nil => simp [Late, hwire] at hlate
  | cons p rest =>
    have hp : p ∈ n.wire x := by simp [hwire]
    obtain ⟨l, packet, rfl⟩ := h.tagged x p hp
    have hl : InUse n l := in_use_wire hp rfl
    simp only [Late, hwire] at hlate
    obtain ⟨hopener, hclosed⟩ := hlate
    have hend : end_of n x l = none := by
      rw [Option.eq_none_iff_forall_ne_some]
      intro c hc
      rw [((h.flow x l).alive hc).1] at hclosed
      cases hclosed
    have hfree : (n.ends x)._channels l.id = none := by
      rw [Option.eq_none_iff_forall_ne_some]
      intro c hc
      rw [h.end_of_live hl hc] at hend
      cases hend
    have hd : l ≠ .default := by
      rintro rfl
      obtain ⟨c, hc⟩ := h.start x
      rw [hend] at hc
      cases hc
    have hflow := (h.flow x l).absent hend hopener hd
    rw [if_pos hclosed, hwire, flying_self v (h.is_int hl)] at hflow
    obtain ⟨got, hgot, hexact⟩ := hflow
    obtain ⟨i, hpop, hid⟩ := header_read v (h.is_int hl) packet
    simp only [channels.step, h.stage x, hwire, Option.some.injEq] at hs
    have hforeign : ((n.take x rest).ends x).Foreign (to_int i) :=
      hid ▸ (h.foreign_iff hl hd).mpr hopener
    have hfree' : ((n.take x rest).ends x)._channels (to_int i) = none := hid ▸ hfree
    rw [read_thread_new hpop hfree' hforeign] at hs
    subst hs
    refine ⟨l.id, { link := l, _packets := [packet] }, by simp [Net.put, hid], ?_⟩
    intro heq
    have hsent : got ++ packet :: flying v rest l = packet :: flying v rest l := by
      rw [hexact]
      simpa [Net.put, Net.take] using heq.symm
    exact hgot (List.append_left_eq_self.mp hsent)

end Inv

end elle.protocol.channels
