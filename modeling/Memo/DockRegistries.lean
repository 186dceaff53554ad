-- When the registries of a dock hold only connections that are alive. A connection
-- is taken out of the first one by its thread, or by `disconnect` before that runs: its
-- destructor only knows of the second one.
import Memo.Dock

open runs registers

namespace memo.Dock

variable {A E : Type} {s : Dock A E} {i : Nat}
variable {c c' : Connection A E} {f : Connection A E → Connection A E}

/-! ## What is kept -/

/-- What each connection satisfies. -/
structure Connection.Sound (c : Connection A E) : Prop where
  connected_alive : c._connected_it = true → c.alive = true
  connected_settled : c._connected_it = true → c.unsettled = false
  unsettled_alive : c.unsettled = true → c.alive = true
  disconnected_settled : c._disconnected = true → c.unsettled = false

/-- A change that neither registry is concerned by. -/
structure Connection.Quiet (c c' : Connection A E) : Prop where
  sound : c.Sound → c'.Sound
  unsettled : c'.unsettled = c.unsettled
  connected : c'._connected_it = c._connected_it
  id : c._connected_it = true → c'._location.id = c._location.id

theorem Connection.Quiet.of_same (hun : c'.unsettled = c.unsettled)
    (hin : c'._connected_it = c._connected_it) (halive : c'.alive = c.alive)
    (hgone : c'._disconnected = true → c._disconnected = true ∨ c.unsettled = false)
    (hid : c._connected_it = true → c'._location.id = c._location.id) : c.Quiet c' := by
  refine ⟨fun h => ⟨?_, ?_, ?_, ?_⟩, hun, hin, hid⟩
  · rw [hin, halive]
    exact h.connected_alive
  · rw [hin, hun]
    exact h.connected_settled
  · rw [hun, halive]
    exact h.unsettled_alive
  · intro hd
    rw [hun]
    rcases hgone hd with hold | hsettled
    · exact h.disconnected_settled hold
    · exact hsettled

theorem Connection.unsettled_thread (h : c'._thread = c._thread) : c'.unsettled = c.unsettled := by
  unfold Connection.unsettled
  rw [h]

theorem Connection.terminate_unsettled (c : Connection A E) :
    c.terminate.unsettled = c.unsettled := by
  unfold Connection.terminate
  split
  · rename_i hthread
    unfold Connection.unsettled
    rw [hthread]
  · exact Connection.unsettled_thread rfl

/-- The registries follow the connections. -/
structure Inv (s : Dock A E) : Prop where
  connecting : Lists (fun c => c.unsettled = true) s.connections s._connecting
  connected : Lists (fun c => c._connected_it = true) s.connections s._connected
  sound : Each Connection.Sound s.connections
  ids : Apart (fun c => c._location.id) (fun c => c._connected_it = true) s.connections
  peers : Lists (fun res => res.users ≠ 0) s.remotes s._peer_cache
  gone : Each (fun res => res.gone = true → res.users = 0) s.remotes

theorem Inv.modify (h : s.Inv)
    (hf : ∀ c, s.connections[i]? = some c → c.Sound → c.Quiet (f c)) :
    (s.modify i f).Inv := by
  have hquiet : ∀ c, s.connections[i]? = some c → c.Quiet (f c) :=
    fun c hc => hf c hc (h.sound i c hc)
  refine ⟨h.connecting.modify_same ?_, h.connected.modify_same ?_, h.sound.modify ?_,
    h.ids.modify ?_, h.peers, h.gone⟩
  · intro c hc
    rw [(hquiet c hc).unsettled]
  · intro c hc
    rw [(hquiet c hc).connected]
  · intro c hc
    exact (hquiet c hc).sound
  · intro c hc hin
    have hold : c._connected_it = true := (hquiet c hc).connected ▸ hin
    exact ⟨hold, (hquiet c hc).id hold⟩

theorem Inv.modify_at (h : s.Inv) (hc : s.connections[i]? = some c)
    (hf : c.Sound → c.Quiet (f c)) : (s.modify i f).Inv := by
  apply h.modify
  intro d hd
  rw [hc, Option.some.injEq] at hd
  exact hd ▸ hf

theorem Inv.settle (h : s.Inv) (hunsettled : ∀ c, (f c).unsettled = false)
    (halive : ∀ c, (f c).alive = c.alive) (hconnected : ∀ c, (f c)._connected_it = c._connected_it)
    (hid : ∀ c, (f c)._location.id = c._location.id) :
    ((s.modify i f).erase_connecting i).Inv := by
  refine ⟨h.connecting.modify_erase ?_, h.connected.modify_same ?_, h.sound.modify ?_,
    h.ids.modify ?_, h.peers, h.gone⟩
  · intro c _
    rw [hunsettled]
    exact Bool.false_ne_true
  · intro c _
    rw [hconnected]
  · intro c _ hc
    refine ⟨fun hin => ?_, fun _ => hunsettled c, fun hun => ?_, fun _ => hunsettled c⟩
    · rw [halive]
      exact hc.connected_alive (hconnected c ▸ hin)
    · rw [hunsettled] at hun
      cases hun
  · intro c _ hin
    exact ⟨hconnected c ▸ hin, hid c⟩

theorem Inv.erase_connected (h : s.Inv) (i : Nat) : (s.erase_connected i).Inv := by
  refine ⟨h.connecting.modify_same fun c _ => Iff.rfl,
    h.connected.modify_erase fun c _ => Bool.false_ne_true, h.sound.modify ?_,
    h.ids.modify ?_, h.peers, h.gone⟩
  · intro c _ hc
    exact ⟨fun hin => absurd hin Bool.false_ne_true, fun hin => absurd hin Bool.false_ne_true,
      hc.unsettled_alive, hc.disconnected_settled⟩
  · intro c _ hin
    cases hin

theorem Inv.destroy (h : s.Inv)
    (hsettled : ∀ c, s.connections[i]? = some c → c.unsettled = false) :
    (s.destroy i).Inv := by
  apply (h.erase_connected i).modify
  intro c hc _
  obtain ⟨d, hd, rfl⟩ := of_modify hc
  have hun : d.unsettled = false := hsettled d hd
  rw [if_pos rfl]
  refine ⟨fun _ => ?_, Connection.terminate_unsettled _, rfl, fun _ => rfl⟩
  have hlater : (Connection.terminate { d with _connected_it := false }).unsettled = false :=
    (Connection.terminate_unsettled _).trans hun
  exact ⟨fun hin => absurd hin Bool.false_ne_true, fun _ => hlater,
    fun hbad => absurd (hlater.symm.trans hbad) Bool.false_ne_true, fun _ => hlater⟩

theorem Inv.let_go (h : s.Inv)
    (hsettled : ∀ c, s.connections[i]? = some c → s.use_count i c = 0 → c.unsettled = false) :
    (s.let_go i).Inv := by
  unfold Dock.let_go
  split
  · rename_i c hc
    split
    · rename_i hlast
      apply h.destroy
      intro d hd
      rw [hc, Option.some.injEq] at hd
      subst hd
      exact hsettled c hc hlast.2
    · exact h
  · exact h

/-! ## The steps of a connection -/

theorem Inv.let_go_settled (h : s.Inv)
    (hsettled : ∀ c, s.connections[i]? = some c → c.unsettled = false) : (s.let_go i).Inv :=
  h.let_go fun c hc _ => hsettled c hc

theorem Inv.share (h : s.Inv) : (s.share i).Inv :=
  h.modify fun _ _ _ => .of_same rfl rfl rfl Or.inl fun _ => rfl

theorem Inv.init (h : s.Inv) (l : NodeLocation A E) (no_remote : Bool) :
    (s.init l no_remote).Inv := by
  refine ⟨h.connecting.push_add rfl, h.connected.push_out Bool.false_ne_true, h.sound.push ?_,
    h.ids.push Bool.false_ne_true, h.peers, h.gone⟩
  exact ⟨fun hin => absurd hin Bool.false_ne_true, fun hin => absurd hin Bool.false_ne_true,
    fun _ => rfl, fun hin => absurd hin Bool.false_ne_true⟩

variable {s' : Dock A E}

theorem connect_cases [DecidableEq A] [DecidableEq E] {l : NodeLocation A E} {no_remote : Bool}
    (h : s.connect l no_remote = .ok (s', i)) :
    s' = s.share i ∨ s' = s.init l no_remote ∧ i = s.connections.length := by
  unfold connect at h
  split at h
  · rename_i j hj
    cases hlock : s.lock j with
    | error e =>
      rw [hlock] at h
      cases h
    | ok c =>
      rw [hlock] at h
      cases h
      exact Or.inl rfl
  · cases hfound : find_connecting s l.id (s.equal_range l.endpoints) with
    | error e =>
      rw [hfound] at h
      cases h
    | ok found =>
      rw [hfound] at h
      cases found with
      | some j =>
        cases h
        exact Or.inl rfl
      | none =>
        cases h
        exact Or.inr ⟨rfl, rfl⟩

theorem Inv.connect [DecidableEq A] [DecidableEq E] {l : NodeLocation A E} {no_remote : Bool}
    (h : s.Inv) (hok : s.connect l no_remote = .ok (s', i)) : s'.Inv := by
  rcases connect_cases hok with rfl | ⟨rfl, -⟩
  · exact h.share
  · exact h.init l no_remote

theorem Inv.start (h : s.Inv) (hc : s.connections[i]? = some c) (hstart : c._thread = .starting) :
    (s.start i).Inv := by
  apply h.modify_at hc
  intro _
  have hun : c.unsettled = true := by
    unfold Connection.unsettled
    rw [hstart]
  exact .of_same hun.symm rfl rfl Or.inl fun _ => rfl

theorem Inv.identify (h : s.Inv) (hc : s.connections[i]? = some c)
    (hthread : c._thread = .connecting) (id : A) : (s.identify i id).Inv := by
  apply h.modify_at hc
  intro hsound
  have hun : c.unsettled = true := by
    unfold Connection.unsettled
    rw [hthread]
  refine .of_same rfl rfl rfl Or.inl fun hin => ?_
  exact absurd (hun.symm.trans (hsound.connected_settled hin)) (by decide)

theorem Inv.connection_failed (h : s.Inv) (i : Nat) : (s.connection_failed i).Inv :=
  h.settle (fun _ => rfl) (fun _ => rfl) (fun _ => rfl) fun _ => rfl

theorem settled_after (hf : ∀ c, (f c).unsettled = false) :
    ∀ c, (s.modify i f).connections[i]? = some c → c.unsettled = false := by
  intro c hc
  obtain ⟨d, -, rfl⟩ := of_modify hc
  rw [if_pos rfl]
  exact hf d

theorem Inv.quit (h : s.Inv) (i : Nat) : (s.quit i).Inv := by
  apply Inv.let_go_settled
  · exact h.settle (fun _ => rfl) (fun _ => rfl) (fun _ => rfl) fun _ => rfl
  · exact settled_after (f := ({ · with slot := false, _thread := .done })) fun _ => rfl

theorem Connection.waits_iff {t : Thread} :
    c.waits t = true ↔ c._thread = t ∧ c.terminating = false := by
  unfold Connection.waits
  exact decide_eq_true_iff

theorem Inv.not_found [DecidableEq A] {id : Option A} (h : s.Inv)
    (hnone : ¬(s.find_connected id).isSome = true) (j : Nat) (d : Connection A E)
    (hd : s.connections[j]? = some d) (hin : d._connected_it = true) : d._location.id ≠ id := by
  intro hid
  apply hnone
  have hj : j ∈ s._connected := (h.connected.mem_iff j).mpr ⟨d, hd, hin⟩
  unfold find_connected
  rw [List.find?_isSome]
  refine ⟨j, hj, ?_⟩
  rw [hd, decide_eq_true_iff]
  exact congrArg some hid

theorem Inv.connection_made [DecidableEq A] (h : s.Inv) (hc : s.connections[i]? = some c)
    (hthread : c._thread = .connecting) : (s.connection_made i c).Inv := by
  have hun : c.unsettled = true := by
    unfold Connection.unsettled
    rw [hthread]
  have hsound := h.sound i c hc
  unfold Dock.connection_made
  split
  · -- the assertion: the connection stays where it is
    apply h.modify_at hc
    intro _
    exact .of_same hun.symm rfl rfl Or.inl fun _ => rfl
  · split
    · apply Inv.let_go_settled
      · exact h.settle (fun _ => rfl) (fun _ => rfl) (fun _ => rfl) fun _ => rfl
      · exact settled_after
          (f := ({ · with _disconnected := true, slot := false, _thread := .done })) fun _ => rfl
    · rename_i hnew
      have hout : ¬c._connected_it = true := fun hin =>
        absurd (hun.symm.trans (hsound.connected_settled hin)) (by decide)
      refine ⟨h.connecting.modify_erase fun c _ => Bool.false_ne_true,
        h.connected.modify_add hc hout rfl, ?_, ?_, h.peers, h.gone⟩
      · apply h.sound.modify
        intro d hd _
        rw [hc, Option.some.injEq] at hd
        subst hd
        exact ⟨fun _ => hsound.unsettled_alive hun, fun _ => rfl,
          fun hbad => absurd hbad Bool.false_ne_true, fun _ => rfl⟩
      · apply h.ids.modify_add
        intro d hd j e he hin
        rw [hc, Option.some.injEq] at hd
        subst hd
        exact h.not_found hnew j e he hin

theorem Inv.hooks (h : s.Inv) (hc : s.connections[i]? = some c)
    (hthread : c._thread = .dock_hooks) : (s.modify i ({ · with _thread := .hooks })).Inv := by
  apply h.modify_at hc
  intro _
  have hun : c.unsettled = false := by
    unfold Connection.unsettled
    rw [hthread]
  exact .of_same hun.symm rfl rfl Or.inl fun _ => rfl

theorem Inv.hooks_done (h : s.Inv) (hc : s.connections[i]? = some c)
    (hthread : c._thread = .hooks) : (s.hooks_done i c).Inv := by
  have hun : c.unsettled = false := by
    unfold Connection.unsettled
    rw [hthread]
  have hlater : ∀ d : Connection A E, Connection.unsettled ({ d with
      slot := false
      _thread := if c.users + s.held_by_remotes i = 0 then .done else .serving }) = false := by
    intro d
    unfold Connection.unsettled
    split_ifs <;> rfl
  apply Inv.let_go_settled
  · apply h.modify_at hc
    intro _
    exact .of_same ((hlater c).trans hun.symm) rfl rfl Or.inl fun _ => rfl
  · exact settled_after hlater

theorem Inv.cleanup (h : s.Inv)
    (hsettled : ∀ c, s.connections[i]? = some c → c.unsettled = false) : (s.cleanup i).Inv := by
  apply (h.erase_connected i).modify
  intro c hc _
  obtain ⟨d, hd, rfl⟩ := of_modify hc
  have hun : d.unsettled = false := hsettled d hd
  rw [if_pos rfl]
  have hlater : Connection.unsettled ({ d with
      _connected_it := false
      _disconnected := true
      slot := false
      _thread := if d.alive then .disconnection_hooks else .done }) = false := by
    unfold Connection.unsettled
    split_ifs <;> rfl
  exact .of_same (hlater.trans hun.symm) rfl rfl (fun _ => Or.inr hun) fun _ => rfl

theorem Inv.disconnection_done (h : s.Inv) (hc : s.connections[i]? = some c)
    (hthread : c._thread = .disconnection_hooks) : (s.disconnection_done i).Inv := by
  have hun : c.unsettled = false := by
    unfold Connection.unsettled
    rw [hthread]
  apply Inv.let_go_settled
  · apply h.modify_at hc
    intro _
    exact .of_same hun.symm rfl rfl Or.inl fun _ => rfl
  · exact settled_after (f := ({ · with _thread := .done })) fun _ => rfl

theorem settled_let_go (hsettled : ∀ c, s.connections[i]? = some c → c.unsettled = false) :
    ∀ c, (s.let_go i).connections[i]? = some c → c.unsettled = false := by
  unfold Dock.let_go
  split
  · split
    · intro c hc
      obtain ⟨d, hd, rfl⟩ := of_modify hc
      obtain ⟨e, he, rfl⟩ := of_modify hd
      have hun := hsettled e he
      rw [if_pos rfl, if_pos rfl]
      exact (Connection.terminate_unsettled _).trans hun
    · exact hsettled
  · exact hsettled

theorem Inv.unwind (h : s.Inv) (hc : s.connections[i]? = some c) (hs : s.unwind i c = some s') :
    s'.Inv := by
  have hplace : c.unsettled = false → ∀ d, s.connections[i]? = some d → d.unsettled = false := by
    intro hun d hd
    rw [hc, Option.some.injEq] at hd
    exact hd ▸ hun
  unfold Dock.unwind at hs
  cases hthread : c._thread with
  | connecting =>
    rw [hthread] at hs
    cases hs
    exact h.quit i
  | dock_hooks | serving =>
    rw [hthread] at hs
    cases hs
    apply h.cleanup
    apply hplace
    unfold Connection.unsettled
    rw [hthread]
  | hooks =>
    rw [hthread] at hs
    cases hs
    have hun : c.unsettled = false := by
      unfold Connection.unsettled
      rw [hthread]
    have hlater : ∀ d, (s.modify i ({ · with slot := false, _thread := .serving })).connections[i]?
        = some d → d.unsettled = false :=
      settled_after (f := ({ · with slot := false, _thread := .serving })) fun _ => rfl
    apply Inv.cleanup
    · apply Inv.let_go_settled
      · apply h.modify_at hc
        intro _
        exact .of_same hun.symm rfl rfl Or.inl fun _ => rfl
      · exact hlater
    · exact settled_let_go hlater
  | disconnection_hooks =>
    rw [hthread] at hs
    cases hs
    exact h.disconnection_done hc hthread
  | starting | discarded | asserted | done =>
    rw [hthread] at hs
    cases hs

theorem Inv.terminate (h : s.Inv) (i : Nat) : (s.modify i Connection.terminate).Inv :=
  h.modify fun c _ _ =>
    .of_same c.terminate_unsettled rfl rfl Or.inl fun _ => rfl

theorem Inv.disconnect (h : s.Inv) (i : Nat) : (s.connection_disconnect i).Inv := by
  unfold Dock.connection_disconnect
  split
  · split_ifs
    · exact h
    · exact h.quit i
    · exact h.terminate i
  · exact h

/-! ## The steps of a remote -/

variable {r : Nat} {res : Remote A} {g : Remote A → Remote A}

/-- Whether the remote holds the connection. -/
def Remote.holds (res : Remote A) (i : Nat) : Bool := res._connection = i ∧ res.gone = false

theorem held_modify (hr : s.remotes[r]? = some res) (i : Nat) :
    (s.modify_remote r g).held_by_remotes i + (res.holds i).toNat =
      s.held_by_remotes i + ((g res).holds i).toNat :=
  countP_modify hr

theorem Inv.modify_remote (h : s.Inv) (hr : s.remotes[r]? = some res)
    (husers : (g res).users ≠ 0 ↔ res.users ≠ 0)
    (hgone : (g res).gone = true → (g res).users = 0) : (s.modify_remote r g).Inv := by
  refine { h with peers := h.peers.modify_same ?_, gone := h.gone.modify ?_ }
  · intro d hd
    rw [hr, Option.some.injEq] at hd
    exact hd ▸ husers
  · intro d hd _
    rw [hr, Option.some.injEq] at hd
    exact hd ▸ hgone

theorem Inv.not_gone (h : s.Inv) (hr : s.remotes[r]? = some res) (husers : res.users ≠ 0) :
    res.gone = false := by
  cases hgone : res.gone with
  | false => rfl
  | true => exact absurd (h.gone r res hr hgone) husers

theorem Inv.share_remote (h : s.Inv) (hr : s.remotes[r]? = some res) (husers : res.users ≠ 0) :
    (s.share_remote r).Inv := by
  apply h.modify_remote hr
  · exact iff_of_true (Nat.succ_ne_zero _) husers
  · intro hgone
    exact absurd (h.gone r res hr hgone) husers

theorem Inv.set_connection (h : s.Inv) (hr : s.remotes[r]? = some res) {old : Nat}
    (hsettled : ∀ c, s.connections[old]? = some c → s.use_count old c ≤ 1 → c.unsettled = false) :
    (s.set_connection r i old).Inv := by
  apply Inv.let_go
  · exact h.modify_remote hr Iff.rfl (h.gone r res hr)
  · intro c hc hlast
    apply hsettled c hc
    have hheld := held_modify (g := ({ · with _connection := i })) hr old
    unfold use_count at hlast ⊢
    have hone : (res.holds old).toNat ≤ 1 := Bool.toNat_le _
    omega

theorem lock_peer_ok (h : s.lock_peer r = .ok res) :
    s.remotes[r]? = some res ∧ res.users ≠ 0 := by
  unfold lock_peer at h
  split at h
  · split at h
    · cases h
    · cases h
      exact ⟨by assumption, by assumption⟩
  · cases h

variable [DecidableEq A]

/-- The connection of the cached remote, that `make_peer` takes from it for another one. -/
def replaced (i : Nat) (s : Dock A E) : Option Nat := do
  let c ← s.connections[i]?
  let r ← s.find_peer c._location.id
  let res ← s.remotes[r]?
  if res._connection ≠ i ∧ s.broken res._connection then some res._connection else none

theorem make_peer_cases {ignored_result : Bool} {result : Option Nat}
    (hc : s.connections[i]? = some c) (hok : s.make_peer i c ignored_result = .ok (s', result)) :
    s' = s ∨
      (∃ r res, s.remotes[r]? = some res ∧ res.users ≠ 0 ∧
        (s' = s.share_remote r ∨
          res._connection ≠ i ∧ s.replaced i = some res._connection ∧
            s' = (s.share_remote r).set_connection r i res._connection)) ∨
      s' = { s with
        remotes := s.remotes ++ [{ id := c._location.id, _connection := i }]
        _peer_cache := s._peer_cache ++ [s.remotes.length] } := by
  unfold make_peer at hok
  split at hok
  · rename_i r hr
    right
    left
    cases hlock : s.lock_peer r with
    | error e =>
      rw [hlock] at hok
      cases hok
    | ok res =>
      obtain ⟨hres, husers⟩ := lock_peer_ok hlock
      rw [hlock] at hok
      refine ⟨r, res, hres, husers, ?_⟩
      change (if res._connection = i then _ else _) = _ at hok
      split at hok
      · cases hok
        exact Or.inl rfl
      · rename_i hother
        split at hok
        · rename_i hbroken
          cases hok
          refine Or.inr ⟨hother, ?_, rfl⟩
          unfold replaced
          simp only [hc, hr, hres, Option.bind_eq_bind, Option.bind_some]
          exact if_pos ⟨hother, hbroken⟩
        · cases hok
          exact Or.inl rfl
  · split at hok
    · cases hok
      exact Or.inl rfl
    · split at hok
      · cases hok
      · cases hok
        exact Or.inr (Or.inr rfl)

/-- The connection of which a step gives a reference back. -/
def lets_go (s : Dock A E) : Act A E → Option Nat
  | .release i => some i
  | .make_peer i _ => s.replaced i
  | .drop_remote r => s.remotes[r]?.map (·._connection)
  | _ => none

/-- The step does not give back the last reference to a connection whose thread has not come past
its attempt to connect. -/
def Settled (s : Dock A E) (a : Act A E) : Prop :=
  ∀ i c, s.lets_go a = some i → s.connections[i]? = some c → s.use_count i c ≤ 1 →
    c.unsettled = false

omit [DecidableEq A] in
theorem shared_use_count (hr : s.remotes[r]? = some res) (i : Nat) (c : Connection A E) :
    (s.share_remote r).use_count i c = s.use_count i c := by
  have hheld := held_modify (g := fun res => { res with users := res.users + 1 }) hr i
  unfold use_count
  exact congrArg _ (Nat.add_right_cancel hheld)

theorem Inv.make_peer {ignored_result : Bool} {result : Option Nat} (h : s.Inv)
    (hc : s.connections[i]? = some c) (hsettled : s.Settled (.make_peer i ignored_result))
    (hok : s.make_peer i c ignored_result = .ok (s', result)) : s'.Inv := by
  rcases make_peer_cases hc hok with
    rfl | ⟨r, res, hres, husers, rfl | ⟨-, hreplaced, rfl⟩⟩ | rfl
  · exact h
  · exact h.share_remote hres husers
  · apply (h.share_remote hres husers).set_connection
      (modify_self (f := fun res => { res with users := res.users + 1 }) hres)
    intro d hd hlast
    rw [shared_use_count hres] at hlast
    exact hsettled _ d hreplaced hd hlast
  · exact { h with
      peers := h.peers.push_add Nat.one_ne_zero
      gone := h.gone.push fun hgone => absurd hgone Bool.false_ne_true }

omit [DecidableEq A] in
theorem Inv.release_remote (h : s.Inv) (hr : s.remotes[r]? = some res) (husers : 0 < res.users) :
    (s.release_remote r res).Inv := by
  unfold Dock.release_remote
  split
  · apply Inv.disconnect
    refine { h with peers := ?_, gone := ?_ }
    · exact h.peers.modify_erase fun _ _ hne => hne rfl
    · exact h.gone.modify fun _ _ _ _ => rfl
  · rename_i hmore
    apply h.modify_remote hr
    · dsimp only
      omega
    · intro hgone
      have hnone := h.gone r res hr hgone
      omega

theorem Inv.drop_remote (h : s.Inv) (hr : s.remotes[r]? = some res) (husers : res.users = 0)
    (hsettled : s.Settled (.drop_remote r)) : (s.drop_remote r res).Inv := by
  apply Inv.let_go
  · exact h.modify_remote hr Iff.rfl fun _ => husers
  · intro c hc hlast
    have hgo : s.lets_go (.drop_remote r) = some res._connection :=
      congrArg (Option.map Remote._connection) hr
    apply hsettled _ c hgo hc
    have hheld := held_modify (g := ({ · with gone := true })) hr res._connection
    have hone : (res.holds res._connection).toNat ≤ 1 := Bool.toNat_le _
    unfold use_count at hlast ⊢
    change _ + Dock.held_by_remotes _ (s.modify_remote r _) = 0 at hlast
    omega

theorem Inv.reconnect [DecidableEq E] {old : Nat} (h : s.Inv) (hr : s.remotes[r]? = some res)
    (hc : s.connections[old]? = some c) (hdisconnected : c._disconnected = true)
    (hok : s.reconnect r old c = .ok s') : s'.Inv := by
  have hun : c.unsettled = false := (h.sound old c hc).disconnected_settled hdisconnected
  unfold Dock.reconnect at hok
  cases hconnect : s.connect c._location false with
  | error e =>
    rw [hconnect] at hok
    cases hok
  | ok result =>
    obtain ⟨s₁, i⟩ := result
    rw [hconnect] at hok
    cases hok
    have hrest : s₁.remotes = s.remotes ∧
        ∀ d, s₁.connections[old]? = some d → d.unsettled = false := by
      rcases connect_cases hconnect with rfl | ⟨rfl, -⟩
      · refine ⟨rfl, fun d hd => ?_⟩
        obtain ⟨e, he, rfl⟩ := of_modify hd
        rw [hc, Option.some.injEq] at he
        subst he
        split <;> exact hun
      · refine ⟨rfl, fun d hd => ?_⟩
        have hold : (s.init c._location false).connections[old]? = some c := push_old hc
        rw [hold, Option.some.injEq] at hd
        exact hd ▸ hun
    apply Inv.set_connection
    · apply (h.connect hconnect).modify
      intro d _ _
      exact .of_same rfl rfl rfl Or.inl fun _ => rfl
    · change s₁.remotes[r]? = some res
      rw [hrest.1]
      exact hr
    · intro d hd _
      obtain ⟨e, he, rfl⟩ := of_modify hd
      have hune := hrest.2 e he
      split <;> exact hune

theorem Inv.release (h : s.Inv) (husers : ∀ c, s.connections[i]? = some c → 0 < c.users)
    (hsettled : s.Settled (.release i)) : (s.release i).Inv := by
  apply Inv.let_go
  · apply h.modify
    intro c _ _
    exact .of_same rfl rfl rfl Or.inl fun _ => rfl
  · intro d hd hlast
    obtain ⟨c, hc, rfl⟩ := of_modify hd
    have hpos := husers c hc
    rw [if_pos rfl] at hlast ⊢
    apply hsettled i c rfl hc
    change c.users - 1 + c.slot.toNat + c.hold.toNat + s.held_by_remotes i = 0 at hlast
    unfold use_count
    omega

/-! ## What the registries are for -/

/-- The registries hold connections that are alive, at most one that is connected for each id, and
none is in both. So no lock fails. -/
structure Registered [DecidableEq E] (s : Dock A E) : Prop where
  connecting_alive : ∀ i ∈ s._connecting, ∃ c, s.connections[i]? = some c ∧ c.alive = true
  connected_alive : ∀ i ∈ s._connected, ∃ c, s.connections[i]? = some c ∧ c.alive = true
  one_for_each_id : ∀ i ∈ s._connected, ∀ j ∈ s._connected, ∀ c d, s.connections[i]? = some c →
    s.connections[j]? = some d → c._location.id = d._location.id → i = j
  apart : ∀ i ∈ s._connecting, i ∉ s._connected
  connects : ∀ l no_remote, s.connect l no_remote ≠ .error .enforce
  makes_peer : ∀ i c ignored_result, s.connections[i]? = some c →
    s.make_peer i c ignored_result ≠ .error .enforce
  makes_peer_at : ∀ l, s.make_peer_at l ≠ .error .enforce

omit [DecidableEq A] in
theorem Inv.connecting_alive (h : s.Inv) (hi : i ∈ s._connecting) :
    ∃ c, s.connections[i]? = some c ∧ c.alive = true := by
  obtain ⟨c, hc, hun⟩ := (h.connecting.mem_iff i).mp hi
  exact ⟨c, hc, (h.sound i c hc).unsettled_alive hun⟩

omit [DecidableEq A] in
theorem Inv.connected_alive (h : s.Inv) (hi : i ∈ s._connected) :
    ∃ c, s.connections[i]? = some c ∧ c.alive = true := by
  obtain ⟨c, hc, hin⟩ := (h.connected.mem_iff i).mp hi
  exact ⟨c, hc, (h.sound i c hc).connected_alive hin⟩

omit [DecidableEq A] in
theorem Inv.lock (h : s.Inv) (hi : i ∈ s._connecting ∨ i ∈ s._connected) :
    ∃ c, s.lock i = .ok c := by
  obtain ⟨c, hc, halive⟩ := hi.elim h.connecting_alive h.connected_alive
  refine ⟨c, ?_⟩
  unfold Dock.lock
  rw [hc]
  exact if_pos halive

theorem find_connecting_ok (id : Option A) {l : List Nat} (h : ∀ i ∈ l, ∃ c, s.lock i = .ok c) :
    ∃ found, find_connecting s id l = .ok found ∧ ∀ i, found = some i → i ∈ l := by
  induction l with
  | nil => exact ⟨none, rfl, fun i hi => nomatch hi⟩
  | cons j l ih =>
    obtain ⟨c, hc⟩ := h j List.mem_cons_self
    obtain ⟨found, hfound, hmem⟩ := ih fun i hi => h i (List.mem_cons_of_mem j hi)
    unfold find_connecting
    rw [hc]
    change ∃ found, (if c._location.id = id then _ else _) = _ ∧ _
    split
    · refine ⟨some j, rfl, fun i hi => ?_⟩
      rw [← Option.some.inj hi]
      exact List.mem_cons_self
    · exact ⟨found, hfound, fun i hi => List.mem_cons_of_mem j (hmem i hi)⟩

theorem Inv.connects [DecidableEq E] (h : s.Inv) (l : NodeLocation A E) (no_remote : Bool) :
    ∃ s' i, s.connect l no_remote = .ok (s', i) ∧ (i ∈ s'._connecting ∨ i ∈ s'._connected) := by
  unfold Dock.connect
  split
  · rename_i j hj
    have hmem : j ∈ s._connected := by
      split at hj
      · exact List.mem_of_find?_eq_some hj
      · cases hj
    obtain ⟨c, hc⟩ := h.lock (Or.inr hmem)
    rw [hc]
    exact ⟨s.share j, j, rfl, Or.inr hmem⟩
  · have hlocks : ∀ i ∈ s.equal_range l.endpoints, ∃ c, s.lock i = .ok c :=
      fun i hi => h.lock (Or.inl (List.mem_of_mem_filter hi))
    obtain ⟨found, hfound, hmem⟩ := find_connecting_ok l.id hlocks
    rw [hfound]
    cases found with
    | some j => exact ⟨s.share j, j, rfl, Or.inl (List.mem_of_mem_filter (hmem j rfl))⟩
    | none =>
      exact ⟨s.init l no_remote, s.connections.length, rfl,
        Or.inl (List.mem_append_right _ (List.mem_singleton_self _))⟩

theorem Inv.lock_peer {id : Option A} (h : s.Inv) (hr : s.find_peer id = some r) :
    ∃ res, s.remotes[r]? = some res ∧ s.lock_peer r = .ok res := by
  obtain ⟨res, hres, husers⟩ := (h.peers.mem_iff r).mp (List.mem_of_find?_eq_some hr)
  refine ⟨res, hres, ?_⟩
  unfold Dock.lock_peer
  rw [hres]
  exact if_neg husers

theorem Inv.makes_peer (h : s.Inv) (i : Nat) (c : Connection A E) (ignored_result : Bool) :
    s.make_peer i c ignored_result ≠ .error .enforce := by
  unfold Dock.make_peer
  split
  · rename_i r hr
    obtain ⟨res, -, hlock⟩ := h.lock_peer hr
    rw [hlock]
    change (if res._connection = i then _ else _) ≠ _
    split_ifs <;> exact fun hbad => nomatch hbad
  · split_ifs <;> exact fun hbad => nomatch hbad

theorem Inv.makes_peer_at [DecidableEq E] (h : s.Inv) (l : NodeLocation A E) :
    s.make_peer_at l ≠ .error .enforce := by
  unfold Dock.make_peer_at
  split_ifs
  · exact fun hbad => nomatch hbad
  · exact fun hbad => nomatch hbad
  · split
    · rename_i r hr
      obtain ⟨res, -, hlock⟩ := h.lock_peer hr
      rw [hlock]
      exact fun hbad => nomatch hbad
    · obtain ⟨s₁, i, hconnect, hmem⟩ := h.connects l false
      have h₁ : s₁.Inv := h.connect hconnect
      obtain ⟨c, hc⟩ := h₁.lock hmem
      simp only [hconnect, bind, Except.bind, hc]
      cases hpeer : s₁.make_peer i c false with
      | error e =>
        intro hbad
        simp only [Except.error.injEq] at hbad
        exact h₁.makes_peer i c false (hbad ▸ hpeer)
      | ok result => exact fun hbad => nomatch hbad

theorem Inv.registered [DecidableEq E] (h : s.Inv) : s.Registered where
  connecting_alive _ := h.connecting_alive
  connected_alive _ := h.connected_alive
  one_for_each_id := by
    intro i hi j hj c d hc hd hid
    obtain ⟨c', hc', hin⟩ := (h.connected.mem_iff i).mp hi
    obtain ⟨d', hd', hin'⟩ := (h.connected.mem_iff j).mp hj
    rw [hc, Option.some.injEq] at hc'
    rw [hd, Option.some.injEq] at hd'
    subst hc' hd'
    exact h.ids i j c d hc hin hd hin' hid
  apart := by
    intro i hi hj
    obtain ⟨c, hc, hun⟩ := (h.connecting.mem_iff i).mp hi
    obtain ⟨d, hd, hin⟩ := (h.connected.mem_iff i).mp hj
    rw [hc, Option.some.injEq] at hd
    subst hd
    exact absurd (hun.symm.trans ((h.sound i c hc).connected_settled hin)) (by decide)
  connects := by
    intro l no_remote hbad
    obtain ⟨s', i, hok, -⟩ := h.connects l no_remote
    rw [hok] at hbad
    cases hbad
  makes_peer i c ignored_result _ := h.makes_peer i c ignored_result
  makes_peer_at := h.makes_peer_at

/-! ## Runs -/

omit [DecidableEq A] in
theorem on_some {p : Connection A E → Bool} {k : Connection A E → Option (Dock A E)}
    (h : s.on i p k = some s') :
    ∃ c, s.connections[i]? = some c ∧ p c = true ∧ k c = some s' := by
  unfold on at h
  split at h
  · split at h
    · exact ⟨_, by assumption, by assumption, h⟩
    · cases h
  · cases h

omit [DecidableEq A] in
theorem on_remote_some {p : Remote A → Bool} {k : Remote A → Option (Dock A E)}
    (h : s.on_remote r p k = some s') :
    ∃ res, s.remotes[r]? = some res ∧ p res = true ∧ k res = some s' := by
  unfold on_remote at h
  split at h
  · split at h
    · exact ⟨_, by assumption, by assumption, h⟩
    · cases h
  · cases h

theorem Inv.step [DecidableEq E] {a : Act A E} (h : s.Inv) (hsettled : s.Settled a)
    (hs : s.step a = some s') :
    s'.Inv := by
  cases a with
  | connect l no_remote =>
    rw [← Option.some.inj hs]
    cases hconnect : s.connect l no_remote with
    | error e => exact h
    | ok result => exact h.connect hconnect
  | share i =>
    obtain ⟨c, hc, -, hk⟩ := on_some hs
    rw [← Option.some.inj hk]
    exact h.share
  | release i =>
    obtain ⟨c, hc, husers, hk⟩ := on_some hs
    rw [← Option.some.inj hk]
    apply h.release _ hsettled
    intro d hd
    rw [hc, Option.some.injEq] at hd
    exact hd ▸ of_decide_eq_true husers
  | start i =>
    obtain ⟨c, hc, hstart, hk⟩ := on_some hs
    rw [← Option.some.inj hk]
    exact h.start hc (of_decide_eq_true hstart)
  | identify i id =>
    obtain ⟨c, hc, hguard, hk⟩ := on_some hs
    rw [← Option.some.inj hk]
    exact h.identify hc (of_decide_eq_true hguard).1 id
  | connection_failed i =>
    obtain ⟨c, hc, -, hk⟩ := on_some hs
    rw [← Option.some.inj hk]
    exact h.connection_failed i
  | connection_made i =>
    obtain ⟨c, hc, hwaits, hk⟩ := on_some hs
    rw [← Option.some.inj hk]
    exact h.connection_made hc (Connection.waits_iff.mp hwaits).1
  | dock_hooks_done i =>
    obtain ⟨c, hc, hwaits, hk⟩ := on_some hs
    rw [← Option.some.inj hk]
    exact h.hooks hc (Connection.waits_iff.mp hwaits).1
  | hooks_done i =>
    obtain ⟨c, hc, hwaits, hk⟩ := on_some hs
    rw [← Option.some.inj hk]
    exact h.hooks_done hc (Connection.waits_iff.mp hwaits).1
  | unwind i =>
    obtain ⟨c, hc, -, hk⟩ := on_some hs
    exact h.unwind hc hk
  | disconnection_done i =>
    obtain ⟨c, hc, hthread, hk⟩ := on_some hs
    rw [← Option.some.inj hk]
    exact h.disconnection_done hc (of_decide_eq_true hthread)
  | terminate i =>
    obtain ⟨c, hc, -, hk⟩ := on_some hs
    rw [← Option.some.inj hk]
    exact h.terminate i
  | disconnect i =>
    obtain ⟨c, hc, -, hk⟩ := on_some hs
    rw [← Option.some.inj hk]
    exact h.disconnect i
  | make_peer i ignored_result =>
    obtain ⟨c, hc, -, hk⟩ := on_some hs
    rw [← Option.some.inj hk]
    cases hpeer : s.make_peer i c ignored_result with
    | error e => exact h
    | ok result => exact h.make_peer hc hsettled hpeer
  | share_remote r =>
    obtain ⟨res, hr, husers, hk⟩ := on_remote_some hs
    rw [← Option.some.inj hk]
    exact h.share_remote hr (Nat.pos_iff_ne_zero.mp (of_decide_eq_true husers))
  | release_remote r =>
    obtain ⟨res, hr, husers, hk⟩ := on_remote_some hs
    rw [← Option.some.inj hk]
    exact h.release_remote hr (of_decide_eq_true husers)
  | drop_remote r =>
    obtain ⟨res, hr, husers, hk⟩ := on_remote_some hs
    obtain ⟨c, hc, -, hk⟩ := on_some hk
    rw [← Option.some.inj hk]
    exact h.drop_remote hr (of_decide_eq_true husers).1 hsettled
  | reconnect r =>
    obtain ⟨res, hr, -, hk⟩ := on_remote_some hs
    obtain ⟨c, hc, hdisconnected, hk⟩ := on_some hk
    cases hreconnect : s.reconnect r res._connection c with
    | error e =>
      rw [hreconnect] at hk
      rw [← Option.some.inj hk]
      exact h
    | ok s₁ =>
      rw [hreconnect] at hk
      rw [← Option.some.inj hk]
      exact h.reconnect hr hc hdisconnected hreconnect

theorem let_go_dead [DecidableEq E] (hc : s.connections[i]? = some c) (halive : c.alive = true)
    (hlast : s.use_count i c = 0) (hi : i ∈ s._connecting) : ¬(s.let_go i).Registered := by
  intro h
  have hgo : s.let_go i = s.destroy i := by
    unfold Dock.let_go
    rw [hc]
    exact if_pos ⟨halive, hlast⟩
  obtain ⟨d, hd, hd_alive⟩ := h.connecting_alive i (by rw [hgo]; exact hi)
  rw [hgo] at hd
  obtain ⟨e, he, rfl⟩ := of_modify hd
  rw [if_pos rfl] at hd_alive
  cases hd_alive

theorem replaced_some {old : Nat} (h : s.replaced i = some old) :
    ∃ c r res, s.connections[i]? = some c ∧ s.find_peer c._location.id = some r ∧
      s.remotes[r]? = some res ∧ res._connection = old ∧ old ≠ i ∧ s.broken old = true := by
  unfold replaced at h
  simp only [Option.bind_eq_bind, Option.bind_eq_some_iff] at h
  obtain ⟨c, hc, r, hr, res, hres, hold⟩ := h
  split at hold
  · rename_i hcond
    cases hold
    exact ⟨c, r, res, hc, hr, hres, rfl, hcond⟩
  · cases hold

theorem Inv.lost [DecidableEq E] {a : Act A E} (h : s.Inv) (hlose : ¬s.Settled a)
    (hs : s.step a = some s') :
    ¬s'.Registered := by
  unfold Settled at hlose
  push Not at hlose
  obtain ⟨i, c, hgo, hc, hlast, hun⟩ := hlose
  have hunsettled : c.unsettled = true := Bool.not_eq_false _ ▸ hun
  have halive : c.alive = true := (h.sound i c hc).unsettled_alive hunsettled
  have hi : i ∈ s._connecting := (h.connecting.mem_iff i).mpr ⟨c, hc, hunsettled⟩
  cases a with
  | release j =>
    cases hgo
    obtain ⟨d, hd, husers, hk⟩ := on_some hs
    rw [hc, Option.some.injEq] at hd
    subst hd
    rw [← Option.some.inj hk]
    have hpos : 0 < c.users := of_decide_eq_true husers
    have hc' : (s.modify i fun c => { c with users := c.users - 1 }).connections[i]? =
        some { c with users := c.users - 1 } := modify_self hc
    refine let_go_dead hc' halive ?_ hi
    change c.users - 1 + c.slot.toNat + c.hold.toNat + s.held_by_remotes i = 0
    unfold use_count at hlast
    omega
  | make_peer j ignored_result =>
    obtain ⟨d, r, res, hd, hr, hres, rfl, hother, hbroken⟩ := replaced_some hgo
    obtain ⟨d', hd', -, hk⟩ := on_some hs
    rw [hd, Option.some.injEq] at hd'
    subst hd'
    obtain ⟨res', hres', hlock⟩ := h.lock_peer hr
    rw [hres, Option.some.injEq] at hres'
    subst hres'
    obtain ⟨-, husers⟩ := lock_peer_ok hlock
    have hpeer : s.make_peer j d ignored_result =
        .ok ((s.share_remote r).set_connection r j res._connection, some r) := by
      unfold Dock.make_peer
      rw [hr]
      change (do let res ← s.lock_peer r; _) = _
      rw [hlock]
      change (if res._connection = j then _ else _) = _
      rw [if_neg hother, if_pos hbroken]
      rfl
    rw [hpeer] at hk
    rw [← Option.some.inj hk]
    have hr' : (s.share_remote r).remotes[r]? = some { res with users := res.users + 1 } :=
      modify_self hres
    have hheld := held_modify (g := ({ · with _connection := j })) hr' res._connection
    have hshared := shared_use_count hres res._connection c
    have hgone : res.gone = false := h.not_gone hres husers
    have hold : Remote.holds { res with users := res.users + 1 } res._connection = true :=
      decide_eq_true ⟨rfl, hgone⟩
    have hnew : Remote.holds ⟨res.id, j, res.users + 1, res.gone⟩ res._connection = false :=
      decide_eq_false fun hboth => hother hboth.1.symm
    refine let_go_dead hc halive ?_ hi
    unfold use_count at hlast hshared ⊢
    rw [hold, hnew] at hheld
    simp only [Bool.toNat_true, Bool.toNat_false] at hheld
    omega
  | drop_remote r =>
    obtain ⟨res, hr, husers, hk⟩ := on_remote_some hs
    obtain ⟨d, hd, -, hk⟩ := on_some hk
    rw [← Option.some.inj hk]
    have hold : some res._connection = some i := by
      rw [← hgo]
      exact (congrArg (Option.map Remote._connection) hr).symm
    cases hold
    have hheld := held_modify (g := ({ · with gone := true })) hr res._connection
    have hheld₀ : res.holds res._connection = true :=
      decide_eq_true ⟨rfl, (of_decide_eq_true husers).2⟩
    have hheld₁ : Remote.holds { res with gone := true } res._connection = false :=
      decide_eq_false fun hboth => Bool.noConfusion hboth.2
    refine let_go_dead hc halive ?_ hi
    unfold use_count at hlast ⊢
    rw [hheld₀, hheld₁] at hheld
    simp only [Bool.toNat_true, Bool.toNat_false] at hheld
    omega
  | _ => cases hgo

/-- A dock without connections. -/
def new (id : A) (asserts on_peer : Bool) : Dock A E := { id, asserts, on_peer }

omit [DecidableEq A] in
theorem Inv.new (id : A) (asserts on_peer : Bool) : (new id asserts on_peer : Dock A E).Inv where
  connecting := Lists.nil
  connected := Lists.nil
  sound _ _ hc := nomatch hc
  ids _ _ _ _ hc := nomatch hc
  peers := Lists.nil
  gone _ _ hr := nomatch hr

/-- The registries hold live connections all along a run if and only if no step gives back the last
reference to a connection whose thread has not come past its attempt to connect. -/
theorem registries_live_iff [DecidableEq E] {id : A} {asserts on_peer : Bool}
    {acts : List (Act A E)} (hrun : Run step anyStep (new id asserts on_peer) acts s) :
    (∀ done t, done <+: acts → Run step anyStep (new id asserts on_peer) done t → t.Registered) ↔
      Run step Settled (new id asserts on_peer) acts s :=
  hrun.always_iff (Inv.new id asserts on_peer) (fun _ h => h.registered)
    (fun _ _ _ h hsettled hs => h.step hsettled hs) fun _ _ _ h _ hlose hs => h.lost hlose hs

instance (s : Dock A E) (a : Act A E) : Decidable (s.Settled a) :=
  match hgo : s.lets_go a with
  | none => isTrue fun i c hi => by
      rw [hgo] at hi
      cases hi
  | some i =>
    match hc : s.connections[i]? with
    | none => isTrue fun j c hj hc' => by
        rw [hgo, Option.some.injEq] at hj
        rw [← hj, hc] at hc'
        cases hc'
    | some c => decidable_of_iff (s.use_count i c ≤ 1 → c.unsettled = false) <| by
        constructor
        · intro h j d hj hd
          rw [hgo, Option.some.injEq] at hj
          subst hj
          rw [hc, Option.some.injEq] at hd
          exact hd ▸ h
        · exact fun h => h i c hgo hc

/-- A connection to a peer, with a remote, that is served until it falls and is then released. -/
def one_session : List (Act Nat Nat) :=
  [.connect ⟨some 1, 5⟩ false, .start 0, .connection_made 0, .dock_hooks_done 0,
    .make_peer 0 false, .hooks_done 0, .connect ⟨some 1, 7⟩ true, .release 0, .unwind 0,
    .release 0, .disconnection_done 0, .release_remote 0, .drop_remote 0]

theorem one_session_is_registered :
    ∃ s : Dock Nat Nat, Run step anyStep (new 0 true true) one_session s ∧
      (s.connections.map (·.alive)) = [false] ∧
      ∀ done t, done <+: one_session → Run step anyStep (new 0 true true) done t →
        t.Registered := by
  have hcomputed : (exec step Settled (new 0 true true) one_session).map
      (fun s => s.connections.map (·.alive)) = some [false] := by decide +kernel
  obtain ⟨s, hrun, hdead⟩ := Run.of_exec_map hcomputed
  have hany : Run step anyStep (new 0 true true) one_session s := hrun.mono fun _ _ _ => trivial
  exact ⟨s, hany, hdead, (registries_live_iff hany).mpr hrun⟩

/-- The reference is given back before the thread runs. The registry keeps a dead element, and the
next connection to the same endpoints throws. -/
theorem released_before_the_thread_runs :
    ∃ (acts : List (Act Nat Nat)) (s : Dock Nat Nat), Run step anyStep (new 0 true true) acts s ∧
      ¬s.Registered ∧ s.connect ⟨some 1, 5⟩ true = .error .enforce := by
  have hcomputed : (exec step anyStep (new 0 true true : Dock Nat Nat)
      [.connect ⟨some 1, 5⟩ true, .release 0]).map
      (fun s => (s.connect ⟨some 1, 5⟩ true).map fun _ => ()) = some (.error .enforce) := by
    decide +kernel
  obtain ⟨s, hrun, hthrown⟩ := Run.of_exec_map hcomputed
  have hconnect : s.connect ⟨some 1, 5⟩ true = .error .enforce := by
    cases hc : s.connect ⟨some 1, 5⟩ true with
    | ok result =>
      rw [hc] at hthrown
      cases hthrown
    | error e =>
      rw [hc] at hthrown
      cases hthrown
      rfl
  exact ⟨_, s, hrun, fun h => h.connects _ _ hconnect, hconnect⟩

end memo.Dock
