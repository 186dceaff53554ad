-- What a node knows of its peers, as `Kouncil` keeps it, and what it does when it
-- is told about one. The records about a peer come in any order and any number of
-- times, and the newest is meant to win.
import Mathlib.Data.Finset.Union
import Mathlib.Data.Finset.Max
import Memo.Ops

open ops

namespace memo.overlay.kouncil

/-! ## The records -/

/-- `NodeLocation`. The endpoints are a sorted set. -/
structure NodeLocation (A E : Type) where
  id : A
  endpoints : Finset E
deriving DecidableEq

/-- `Kouncil::PeerInfo`, but for the clock of its disappearance. `storing` does not travel. -/
structure PeerInfo (A E : Type) where
  id : A
  endpoints : Finset E
  stamp : Int := -1
  storing : Option Bool := none
deriving DecidableEq

variable {A E : Type} [DecidableEq A] [DecidableEq E]

def PeerInfo.location (p : PeerInfo A E) : NodeLocation A E := ⟨p.id, p.endpoints⟩

/-- `PeerInfo::merge`, and whether the endpoints were replaced. -/
def PeerInfo.merge (p other : PeerInfo A E) : PeerInfo A E × Bool :=
  if (p.stamp < other.stamp ∨ other.stamp = -1) ∧ p.endpoints ≠ other.endpoints then
    ({ p with endpoints := other.endpoints, stamp := other.stamp }, true)
  else
    (p, false)

/-- What a node throws. -/
inductive Error where
  | assert_error (condition : String)
deriving DecidableEq

/-- A `Kouncil`: what it knows of each peer, the peers it is connected to, and the endpoints it
tries again. `connecting` and `notified` are the requests to the dock and to the observers. -/
structure Kouncil (A E : Type) where
  id : A
  has_local : Bool
  _infos : List (PeerInfo A E) := []
  _peers : Finset A := ∅
  _stale_endpoints : A → Option (Finset E) := fun _ => none
  connecting : List (NodeLocation A E) := []
  notified : List (PeerInfo A E) := []

/-! ## A discovery -/

/-- The record of a peer. There is one at most. -/
def find (id : A) (infos : List (PeerInfo A E)) : Option (PeerInfo A E) :=
  infos.find? fun p => p.id = id

/-- `_remember_stale`: the endpoints are added to those that are known. -/
def _remember_stale (peer : NodeLocation A E) (k : Kouncil A E) : Kouncil A E :=
  let known := (k._stale_endpoints peer.id).getD ∅
  { k with _stale_endpoints :=
      Function.update k._stale_endpoints peer.id (some (known ∪ peer.endpoints)) }

/-- `Dock::connect`. -/
def connect (peer : NodeLocation A E) (k : Kouncil A E) : Kouncil A E :=
  { k with connecting := k.connecting ++ [peer] }

def _notify_observers (pi : PeerInfo A E) (k : Kouncil A E) : Kouncil A E :=
  if k.has_local then { k with notified := k.notified ++ [pi] } else k

/-- The table with the record of a peer modified. -/
def modify (id : A) (f : PeerInfo A E → PeerInfo A E) (infos : List (PeerInfo A E)) :
    List (PeerInfo A E) :=
  infos.map fun p => if p.id = id then f p else p

/-- The table once `pi` is merged in, and whether that changed anything. -/
def merge_in (pi : PeerInfo A E) (infos : List (PeerInfo A E)) : List (PeerInfo A E) × Bool :=
  match find pi.id infos with
  | some p => (modify pi.id (fun p => (p.merge pi).1) infos, (p.merge pi).2)
  | none => (infos ++ [pi], true)

/-- What a changed record is followed by. -/
def announce (pi : PeerInfo A E) (k : Kouncil A E) : Kouncil A E :=
  let k := _remember_stale pi.location k
  _notify_observers pi (if pi.id ∈ k._peers then k else connect pi.location k)

/-- `_discover` of one record. `null` is the address of nobody. -/
def _discover (null : A) (pi : PeerInfo A E) : Op (Kouncil A E) Error Unit := do
  if pi.id = null then
    Op.throw (.assert_error "pi.id()")
  else
    let k ← Op.get
    let (infos, changed) := merge_in pi k._infos
    Op.modify fun k => { k with _infos := infos }
    if changed then Op.modify (announce pi)

/-- `_discover` of many: a node does not discover itself. -/
def _discover_all (null : A) : List (PeerInfo A E) → Op (Kouncil A E) Error Unit
  | [] => pure ()
  | pi :: pis => do
    let k ← Op.get
    (if pi.id = k.id then pure () else _discover null pi : Op (Kouncil A E) Error Unit)
    _discover_all null pis

/-! ## The record that stands -/

/-- What stands once a record of the peer is merged in. -/
def stand (pi : PeerInfo A E) : Option (PeerInfo A E) → PeerInfo A E
  | some p => (p.merge pi).1
  | none => pi

/-- What stands after some records of one peer. -/
def standing (info : Option (PeerInfo A E)) (order : List (PeerInfo A E)) :
    Option (PeerInfo A E) :=
  order.foldl (fun info pi => some (stand pi info)) info

omit [DecidableEq A] in
theorem merge_id (p other : PeerInfo A E) : (p.merge other).1.id = p.id := by
  unfold PeerInfo.merge
  split <;> rfl

omit [DecidableEq E] in
theorem find_modify {id : A} {f : PeerInfo A E → PeerInfo A E} (hf : ∀ p, (f p).id = p.id)
    (infos : List (PeerInfo A E)) : find id (modify id f infos) = (find id infos).map f := by
  unfold find modify
  induction infos with
  | nil => rfl
  | cons p infos ih =>
    rw [List.map_cons, List.find?_cons, List.find?_cons]
    by_cases hp : p.id = id
    · simp [hp, hf]
    · simpa [hp] using ih

theorem find_merge_in (pi : PeerInfo A E) (infos : List (PeerInfo A E)) :
    find pi.id (merge_in pi infos).1 = some (stand pi (find pi.id infos)) := by
  unfold merge_in
  cases hp : find pi.id infos with
  | none =>
    unfold find at *
    rw [List.find?_append, hp]
    simp [stand]
  | some p =>
    dsimp only
    rw [find_modify fun p => merge_id p pi, hp]
    rfl

theorem announce_infos (pi : PeerInfo A E) (k : Kouncil A E) :
    (announce pi k)._infos = k._infos ∧ (announce pi k).id = k.id := by
  unfold announce _notify_observers connect _remember_stale
  dsimp only
  split <;> split <;> exact ⟨rfl, rfl⟩

theorem _discover_infos {null : A} {pi : PeerInfo A E} (k : Kouncil A E) (h : pi.id ≠ null) :
    ∃ k', _discover null pi k = (.ok (), k') ∧ k'.id = k.id ∧
      k'._infos = (merge_in pi k._infos).1 := by
  unfold _discover
  rw [if_neg h, Op.bind_of_ok (Op.get_apply k)]
  dsimp only
  rw [Op.bind_of_ok (Op.modify_apply _ k)]
  by_cases hc : (merge_in pi k._infos).2 = true
  · rw [if_pos hc]
    exact ⟨_, rfl, (announce_infos pi _).2, (announce_infos pi _).1⟩
  · rw [if_neg hc]
    exact ⟨_, rfl, rfl, rfl⟩

theorem _discover_all_infos {null id : A} (hnull : id ≠ null) {order : List (PeerInfo A E)}
    (horder : ∀ pi ∈ order, pi.id = id) (k : Kouncil A E) (hself : id ≠ k.id) :
    ∃ k', _discover_all null order k = (.ok (), k') ∧
      find id k'._infos = standing (find id k._infos) order := by
  induction order generalizing k with
  | nil => exact ⟨k, rfl, rfl⟩
  | cons pi pis ih =>
    have hid := horder pi List.mem_cons_self
    obtain ⟨k₁, h₁, hid₁, hinfos⟩ := _discover_infos k (hid ▸ hnull : pi.id ≠ null)
    obtain ⟨k', h', hstand⟩ := ih (fun p hp => horder p (List.mem_cons_of_mem _ hp)) k₁
      (hid₁ ▸ hself)
    refine ⟨k', ?_, ?_⟩
    · unfold _discover_all
      rw [Op.bind_of_ok (Op.get_apply k), if_neg (hid ▸ hself), Op.bind_of_ok h₁]
      exact h'
    · rw [hstand, hinfos, ← hid, find_merge_in]
      rfl

/-! ## Records that converge -/

/-- No record of the peer is older than `newest`. -/
def IsNewest (records : Finset (PeerInfo A E)) (newest : PeerInfo A E) : Prop :=
  newest ∈ records ∧ ∀ r ∈ records, r.stamp ≤ newest.stamp

/-- The node is another one, and had not heard of the peer. -/
def Unheard (id : A) (k : Kouncil A E) : Prop := id ≠ k.id ∧ find id k._infos = none

/-- The records in some order, each of them once or more. -/
def Tells (order : List (PeerInfo A E)) (records : Finset (PeerInfo A E)) : Prop :=
  ∀ r, r ∈ order ↔ r ∈ records

/-- The endpoints that a node keeps for a peer. -/
def endpoints_of (id : A) (k : Kouncil A E) : Option (Finset E) :=
  (find id k._infos).map (·.endpoints)

/-- The newest record wins in every order, and any two nodes that heard the same agree. -/
structure Converges (null id : A) (records : Finset (PeerInfo A E)) : Prop where
  newest : ∀ newest, IsNewest records newest → ∀ k order, Unheard id k → Tells order records →
    ∃ k', _discover_all null order k = (.ok (), k') ∧ endpoints_of id k' = some newest.endpoints
  agree : ∀ k₁ k₂ order₁ order₂, Unheard id k₁ → Unheard id k₂ → Tells order₁ records →
    Tells order₂ records → ∃ k₁' k₂', _discover_all null order₁ k₁ = (.ok (), k₁') ∧
      _discover_all null order₂ k₂ = (.ok (), k₂') ∧ endpoints_of id k₁' = endpoints_of id k₂'

/-- The endpoints of the newest record were not given up before: since the first record that has
them, all have. -/
def NeverComesBack (records : Finset (PeerInfo A E)) : Prop :=
  ∀ newest, IsNewest records newest → ∀ r ∈ records, r.endpoints = newest.endpoints →
    ∀ r' ∈ records, r.stamp < r'.stamp → r'.endpoints = newest.endpoints

/-- Records of one peer, each with a stamp of its own. -/
structure Records (id : A) (records : Finset (PeerInfo A E)) : Prop where
  peer : ∀ r ∈ records, r.id = id
  stamped : ∀ r ∈ records, 0 ≤ r.stamp
  distinct : ∀ r ∈ records, ∀ r' ∈ records, r.stamp = r'.stamp → r = r'

section

variable {id : A} {records : Finset (PeerInfo A E)} {newest : PeerInfo A E}

/-- The record that stands has the endpoints and the stamp of one that was told. -/
def FromOne (told : List (PeerInfo A E)) (p : PeerInfo A E) : Prop :=
  ∃ r ∈ told, p.endpoints = r.endpoints ∧ p.stamp = r.stamp

variable {order : List (PeerInfo A E)} {p : PeerInfo A E}

omit [DecidableEq A] in
theorem merge_kept {other : PeerInfo A E}
    (h : ¬(p.stamp < other.stamp ∧ p.endpoints ≠ other.endpoints)) (hs : 0 ≤ other.stamp) :
    (p.merge other).1 = p := by
  unfold PeerInfo.merge
  rw [if_neg]
  intro ⟨hstamp, hne⟩
  rcases hstamp with hlt | heq
  · exact h ⟨hlt, hne⟩
  · omega

omit [DecidableEq A] in
theorem merge_taken {other : PeerInfo A E} (h : p.stamp < other.stamp)
    (hne : p.endpoints ≠ other.endpoints) :
    (p.merge other).1.endpoints = other.endpoints ∧ (p.merge other).1.stamp = other.stamp := by
  unfold PeerInfo.merge
  rw [if_pos ⟨Or.inl h, hne⟩]
  exact ⟨rfl, rfl⟩

theorem merge_newest (hr : Records id records) (hnew : IsNewest records newest)
    (hback : NeverComesBack records) {told : List (PeerInfo A E)} {r : PeerInfo A E}
    (htold : ∀ r ∈ told, r ∈ records) (hp : FromOne told p) (hrec : r ∈ records)
    (hwins : newest ∈ told → p.endpoints = newest.endpoints) :
    FromOne (told ++ [r]) (p.merge r).1 ∧
      (newest ∈ told ++ [r] → (p.merge r).1.endpoints = newest.endpoints) := by
  obtain ⟨q, hq, hqe, hqs⟩ := hp
  by_cases hc : p.stamp < r.stamp ∧ p.endpoints ≠ r.endpoints
  · obtain ⟨htake, hstamp⟩ := merge_taken hc.1 hc.2
    refine ⟨⟨r, by simp, htake, hstamp⟩, ?_⟩
    intro hmem
    rw [htake]
    by_cases hin : newest ∈ told
    · -- the newest endpoints stand already: a higher stamp comes with the same ones
      have hpe := hwins hin
      exact hback newest hnew q (htold q hq) (hqe ▸ hpe) r hrec (by omega)
    · rw [List.mem_append, List.mem_singleton] at hmem
      rw [hmem.resolve_left hin]
  · rw [merge_kept hc (hr.stamped r hrec)]
    refine ⟨⟨q, by simp [hq], hqe, hqs⟩, ?_⟩
    intro hmem
    by_cases hin : newest ∈ told
    · exact hwins hin
    · rw [List.mem_append, List.mem_singleton] at hmem
      have heq := hmem.resolve_left hin
      by_cases he : p.endpoints = r.endpoints
      · rw [he, heq]
      · -- the stamp that stands is as high as the newest one, so it is its own
        have hle := hnew.2 q (htold q hq)
        have hsame : q = newest := by
          apply hr.distinct q (htold q hq) newest hnew.1
          have : ¬p.stamp < r.stamp := fun hlt => hc ⟨hlt, he⟩
          rw [heq] at hle ⊢
          omega
        rw [hqe, hsame]

theorem standing_newest (hr : Records id records) (hnew : IsNewest records newest)
    (hback : NeverComesBack records) (horder : ∀ r ∈ order, r ∈ records) (hne : order ≠ []) :
    ∃ p, standing none order = some p ∧ FromOne order p ∧
      (newest ∈ order → p.endpoints = newest.endpoints) := by
  induction order using List.reverseRecOn with
  | nil => exact absurd rfl hne
  | append_singleton told r ih =>
    have hrec := horder r (by simp)
    have htold : ∀ r ∈ told, r ∈ records := fun r h => horder r (by simp [h])
    unfold standing at *
    rw [List.foldl_append, List.foldl_cons, List.foldl_nil]
    by_cases hnil : told = []
    · rw [hnil]
      refine ⟨r, rfl, ⟨r, by simp, rfl, rfl⟩, ?_⟩
      intro hmem
      simp only [List.nil_append, List.mem_singleton] at hmem
      rw [hmem]
    · obtain ⟨p, hp, hfrom, hwins⟩ := ih htold hnil
      rw [hp]
      exact ⟨_, rfl, merge_newest hr hnew hback htold hfrom hrec hwins⟩

omit [DecidableEq A] in
theorem standing_same (h : ∀ r ∈ order, p.endpoints = r.endpoints) :
    standing (some p) order = some p := by
  induction order with
  | nil => rfl
  | cons r order ih =>
    have hkeep : (p.merge r).1 = p := by
      unfold PeerInfo.merge
      rw [if_neg fun hc => hc.2 (h r List.mem_cons_self)]
    change standing (some (p.merge r).1) order = _
    rw [hkeep]
    exact ih fun r hr => h r (List.mem_cons_of_mem _ hr)

omit [DecidableEq A] in
theorem standing_other {e : Finset E} (hp : p.endpoints ≠ e) (h : ∀ r ∈ order, r.endpoints ≠ e) :
    ∃ p', standing (some p) order = some p' ∧ p'.endpoints ≠ e := by
  induction order generalizing p with
  | nil => exact ⟨p, rfl, hp⟩
  | cons r order ih =>
    apply ih _ fun r hr => h r (List.mem_cons_of_mem _ hr)
    change (p.merge r).1.endpoints ≠ e
    unfold PeerInfo.merge
    split
    · exact h r List.mem_cons_self
    · exact hp

omit [DecidableEq A] in
theorem standing_replaced {r : PeerInfo A E} (h : ∀ r ∈ order, r.endpoints ≠ p.endpoints)
    (hr : r ∈ order) (hlt : p.stamp < r.stamp) :
    ∃ p', standing (some p) order = some p' ∧ p'.endpoints ≠ p.endpoints := by
  induction order with
  | nil => cases hr
  | cons r' order ih =>
    have hrest : ∀ r ∈ order, r.endpoints ≠ p.endpoints :=
      fun r hr => h r (List.mem_cons_of_mem _ hr)
    change ∃ p', standing (some (p.merge r').1) order = _ ∧ _
    by_cases hc : p.stamp < r'.stamp ∨ r'.stamp = -1
    · have hother : (p.merge r').1.endpoints ≠ p.endpoints := by
        unfold PeerInfo.merge
        rw [if_pos ⟨hc, (h r' List.mem_cons_self).symm⟩]
        exact h r' List.mem_cons_self
      exact standing_other hother hrest
    · have hkeep : (p.merge r').1 = p := by
        unfold PeerInfo.merge
        rw [if_neg fun h => hc h.1]
      rw [hkeep]
      rcases List.mem_cons.mp hr with heq | hmem
      · exact absurd (Or.inl (heq ▸ hlt)) hc
      · exact ih hrest hmem

theorem converges_never_back {null : A} (hnull : id ≠ null) (hr : Records id records)
    (h : Converges null id records) : NeverComesBack records := by
  intro newest hnew r hrec hre r' hrec' hlt
  by_contra hother
  let same := records.toList.filter fun p => p.endpoints = newest.endpoints
  let others := records.toList.filter fun p => p.endpoints ≠ newest.endpoints
  have hsame : ∀ p ∈ same, r.endpoints = p.endpoints := by
    intro p hp
    have hpe : p.endpoints = newest.endpoints := by simpa using (List.mem_filter.mp hp).2
    rw [hre, hpe]
  have hothers : ∀ p ∈ others, p.endpoints ≠ r.endpoints := by
    intro p hp
    have hpe : p.endpoints ≠ newest.endpoints := by simpa using (List.mem_filter.mp hp).2
    rwa [hre]
  have hmem : r' ∈ others :=
    List.mem_filter.mpr ⟨Finset.mem_toList.mpr hrec', by simpa using hother⟩
  have htells : Tells (r :: (same ++ others)) records := by
    intro p
    simp only [List.mem_cons, List.mem_append, same, others, List.mem_filter, Finset.mem_toList]
    constructor
    · intro hp
      rcases hp with heq | hp | hp
      · exact heq ▸ hrec
      · exact hp.1
      · exact hp.1
    · intro hp
      by_cases he : p.endpoints = newest.endpoints
      · exact Or.inr (Or.inl ⟨hp, by simpa using he⟩)
      · exact Or.inr (Or.inr ⟨hp, by simpa using he⟩)
  let stranger : Kouncil A E := { id := null, has_local := false }
  obtain ⟨k', htold, hkept⟩ := h.newest newest hnew stranger _ ⟨hnull, rfl⟩ htells
  obtain ⟨k, hk, hstand⟩ := _discover_all_infos hnull
    (fun p hp => hr.peer p ((htells p).mp hp)) stranger hnull
  obtain ⟨p', hp', hlast⟩ := standing_replaced hothers hmem hlt
  have hend : standing (find id stranger._infos) (r :: (same ++ others)) = some p' := by
    change standing (some r) (same ++ others) = _
    unfold standing at hp' ⊢
    rw [List.foldl_append]
    change standing (standing (some r) same) others = _
    rw [standing_same hsame]
    exact hp'
  rw [htold] at hk
  cases hk
  unfold endpoints_of at hkept
  rw [hstand, hend] at hkept
  simp only [Option.map_some, Option.some.injEq] at hkept
  exact hlast (hkept.trans hre.symm)

theorem newest_kept {null : A} (hnull : id ≠ null) (hr : Records id records)
    (hback : NeverComesBack records) (hnew : IsNewest records newest) {k : Kouncil A E}
    (hk : Unheard id k) (horder : Tells order records) :
    ∃ k', _discover_all null order k = (.ok (), k') ∧
      endpoints_of id k' = some newest.endpoints := by
  have hmem := (horder newest).mpr hnew.1
  obtain ⟨k', htold, hstand⟩ := _discover_all_infos hnull
    (fun p hp => hr.peer p ((horder p).mp hp)) k hk.1
  obtain ⟨p, hp, -, hwins⟩ := standing_newest hr hnew hback (fun p hp => (horder p).mp hp)
    (List.ne_nil_of_mem hmem)
  refine ⟨k', htold, ?_⟩
  unfold endpoints_of
  rw [hstand, hk.2, hp, ← hwins hmem]
  rfl

theorem nothing_kept (null : A) (hnone : records = ∅) {k : Kouncil A E} (hk : Unheard id k)
    (horder : Tells order records) :
    ∃ k', _discover_all null order k = (.ok (), k') ∧ endpoints_of id k' = none := by
  have hnil : order = [] := by
    rw [List.eq_nil_iff_forall_not_mem]
    intro p hp
    have hrec := (horder p).mp hp
    rw [hnone] at hrec
    exact Finset.notMem_empty p hrec
  rw [hnil]
  refine ⟨k, rfl, ?_⟩
  unfold endpoints_of
  rw [hk.2]
  rfl

/-- The endpoints of the newest record win in every order, so that all nodes agree, when and only
when they were not replaced by others after they first stood. -/
theorem records_converge_unless_endpoints_come_back {null : A} (hnull : id ≠ null)
    (hr : Records id records) : Converges null id records ↔ NeverComesBack records := by
  constructor
  · exact converges_never_back hnull hr
  · intro hback
    constructor
    · intro newest hnew k order hk horder
      exact newest_kept hnull hr hback hnew hk horder
    · intro k₁ k₂ order₁ order₂ hk₁ hk₂ horder₁ horder₂
      by_cases hnone : records = ∅
      · obtain ⟨k₁', h₁, he₁⟩ := nothing_kept null hnone hk₁ horder₁
        obtain ⟨k₂', h₂, he₂⟩ := nothing_kept null hnone hk₂ horder₂
        exact ⟨k₁', k₂', h₁, h₂, he₁.trans he₂.symm⟩
      · obtain ⟨newest, hmem, hmax⟩ := Finset.exists_max_image records (·.stamp)
          (Finset.nonempty_iff_ne_empty.mpr hnone)
        obtain ⟨k₁', h₁, he₁⟩ := newest_kept hnull hr hback ⟨hmem, hmax⟩ hk₁ horder₁
        obtain ⟨k₂', h₂, he₂⟩ := newest_kept hnull hr hback ⟨hmem, hmax⟩ hk₂ horder₂
        exact ⟨k₁', k₂', h₁, h₂, he₁.trans he₂.symm⟩

end

/-! ## A peer that moves and comes back -/

/-- Peer 1 is seen at some endpoint at some time. -/
def seen (endpoint : Nat) (stamp : Int) : PeerInfo Nat Nat :=
  { id := 1, endpoints := {endpoint}, stamp := stamp }

theorem seen_records {records : Finset (PeerInfo Nat Nat)}
    (h : ∀ r ∈ records, r.id = 1 ∧ 0 ≤ r.stamp)
    (hd : ∀ r ∈ records, ∀ r' ∈ records, r.stamp = r'.stamp → r = r') : Records 1 records :=
  ⟨fun r hr => (h r hr).1, fun r hr => (h r hr).2, hd⟩

theorem a_peer_that_moves_once_converges :
    Converges 0 1 {seen 10 1, seen 10 2, seen 20 3} := by
  apply (records_converge_unless_endpoints_come_back (by decide)
    (seen_records (by decide) (by decide))).mpr
  intro newest hnew r hr he r' hr' hlt
  have hmem : newest = seen 20 3 := by
    have hmax := hnew.2 (seen 20 3) (by decide)
    have hcases := hnew.1
    simp only [Finset.mem_insert, Finset.mem_singleton] at hcases
    rcases hcases with rfl | rfl | rfl
    · exact absurd hmax (by decide)
    · exact absurd hmax (by decide)
    · rfl
  rw [hmem] at he ⊢
  revert r r'
  decide

/-- The peer moves away and comes back. If the second place is heard of last, it is kept, for the
stamp of the way back was not. -/
theorem a_peer_that_comes_back_is_lost :
    ¬Converges 0 1 {seen 10 1, seen 20 2, seen 10 3} := by
  intro h
  have hnew : IsNewest {seen 10 1, seen 20 2, seen 10 3} (seen 10 3) := ⟨by decide, by decide⟩
  have horder : Tells [seen 10 1, seen 10 3, seen 20 2] {seen 10 1, seen 20 2, seen 10 3} := by
    intro p
    simp only [List.mem_cons, List.not_mem_nil, Finset.mem_insert, Finset.mem_singleton]
    tauto
  obtain ⟨k', htold, hkept⟩ := h.newest _ hnew { id := 2, has_local := false } _
    ⟨by decide, rfl⟩ horder
  cases htold
  revert hkept
  decide

end memo.overlay.kouncil
