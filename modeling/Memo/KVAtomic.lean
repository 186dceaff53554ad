-- The key-value store as one atomic map: the requests that succeed take effect one by one, in
-- the order in which their updates of the root block are accepted, and a request that is
-- refused saw a root map that refuses it.
import Memo.KVServer

open stores runs

namespace memo.kvs

variable {A D : Type}

/-! ## The map -/

/-- The map that a root map stands for: from the keys to the addresses of their values. -/
def held (km : KeyMap A) : Map Key A :=
  fun key => (find km key).bind fun desc => desc.current.bind ValueStore.address

/-- What an operation does to the map. -/
def Operation.apply (m : Map Key A) (op : Operation A) : Map Key A :=
  Function.update m op.key (if op.opType = .DELETE then none else op.store.address)

/-- Whether the map allows an operation. -/
def Operation.Allowed (m : Map Key A) (op : Operation A) : Prop :=
  match op.opType with
  | .INSERT => m op.key = none
  | .UPDATE | .DELETE => m op.key ≠ none
  | .UPSERT => True

/-- The operations are allowed, one after the other. -/
def Legal (m : Map Key A) : List (Operation A) → Prop
  | [] => True
  | op :: ops => op.Allowed m ∧ Legal (op.apply m) ops

theorem legal_append (m : Map Key A) (ops : List (Operation A)) (op : Operation A) :
    Legal m (ops ++ [op]) ↔ Legal m ops ∧ op.Allowed (ops.foldl Operation.apply m) := by
  induction ops generalizing m with
  | nil => simp [Legal]
  | cons op' ops ih =>
    simp only [List.cons_append, Legal, List.foldl_cons, ih]
    exact and_assoc.symm

/-- Each key of the map has the address of a value. -/
def Proper (km : KeyMap A) : Prop :=
  ∀ key desc, find km key = some desc → ∃ a, desc = { current := some { address := some a } }

/-- A put has the address of its value, and a deletion has none. -/
def Operation.Stores (op : Operation A) : Prop :=
  op.opType = .DELETE ↔ op.store.address = none

/-- A map in which an operation is refused. -/
def Operation.RefusedBy (op : Operation A) (code : Code) (m : Map Key A) : Prop :=
  (code = .AlreadyExists → m op.key ≠ none) ∧ (code = .NotFound → m op.key = none)

theorem held_put (km : KeyMap A) (key : Key) (desc : Option (ValueDescriptor A)) :
    held (put key desc km) =
      Function.update (held km) key
        (desc.bind fun desc => desc.current.bind ValueStore.address) := by
  funext key'
  unfold held
  rw [find_put]
  by_cases hk : key' = key
  · rw [hk, Function.update_self, Function.update_self]
  · rw [Function.update_of_ne hk, Function.update_of_ne hk]

variable {km : KeyMap A} {op : Operation A}

theorem proper_put (hkm : Proper km) {key : Key} {desc : Option (ValueDescriptor A)}
    (h : ∀ d ∈ desc, ∃ a, d = { current := some { address := some a } }) :
    Proper (put key desc km) := by
  intro key' desc' hfind
  rw [find_put] at hfind
  by_cases hk : key' = key
  · rw [hk, Function.update_self] at hfind
    exact h desc' hfind
  · rw [Function.update_of_ne hk] at hfind
    exact hkm key' desc' hfind

theorem Proper.held (hkm : Proper km) (key : Key) :
    find km key = (held km key).map fun a => { current := some { address := some a } } := by
  unfold kvs.held
  cases hfind : find km key with
  | none => rfl
  | some desc =>
    obtain ⟨a, rfl⟩ := hkm key desc hfind
    rfl

theorem put_stored (hkm : Proper km) {a : A} (ha : op.store.address = some a) :
    held (put op.key (some { current := some op.store }) km) =
        Function.update (held km) op.key op.store.address ∧
      Proper (put op.key (some { current := some op.store }) km) := by
  constructor
  · rw [held_put]
    rfl
  · refine proper_put hkm fun d hd => ⟨a, ?_⟩
    cases hd
    rw [← ha]

theorem turn_ok {km' : KeyMap A} {old : Option A} (hkm : Proper km) (hop : op.Stores)
    (h : op.turn km = .ok (old, km')) :
    old = held km op.key ∧ op.Allowed (held km) ∧ held km' = op.apply (held km) ∧
      Proper km' := by
  have hfind := hkm.held op.key
  have hput : op.opType ≠ .DELETE →
      held (put op.key (some { current := some op.store }) km) = op.apply (held km) ∧
        Proper (put op.key (some { current := some op.store }) km) := by
    intro hne
    obtain ⟨a, ha⟩ := Option.ne_none_iff_exists'.mp (hop.not.mp hne)
    unfold Operation.apply
    rw [if_neg hne]
    exact put_stored hkm ha
  unfold Operation.turn at h
  unfold Operation.Allowed
  rw [hfind] at h
  cases hheld : held km op.key with
  | none =>
    rw [hheld] at h
    cases htype : op.opType <;> simp only [htype, Option.map_none] at h hput ⊢ <;> cases h
    · exact ⟨rfl, trivial, hput (by simp)⟩
    · exact ⟨rfl, trivial, hput (by simp)⟩
  | some a =>
    rw [hheld] at h
    cases htype : op.opType <;> simp only [htype, Option.map_some] at h hput ⊢ <;> cases h
    · exact ⟨rfl, by simp, hput (by simp)⟩
    · exact ⟨rfl, trivial, hput (by simp)⟩
    · refine ⟨rfl, by simp, ?_, proper_put hkm (by simp)⟩
      unfold Operation.apply
      rw [if_pos htype, held_put]
      rfl

theorem turn_error {refusal : Refusal} (hkm : Proper km) (h : op.turn km = .error refusal) :
    op.RefusedBy refusal.code (held km) ∧ ¬ op.Allowed (held km) := by
  have hfind := hkm.held op.key
  unfold Operation.turn at h
  unfold Operation.RefusedBy Operation.Allowed
  rw [hfind] at h
  cases hheld : held km op.key with
  | none =>
    rw [hheld] at h
    cases htype : op.opType <;> simp only [htype, Option.map_none] at h ⊢ <;> cases h
    · simp [Refusal.code]
    · simp [Refusal.code]
  | some a =>
    rw [hheld] at h
    cases htype : op.opType <;> simp only [htype, Option.map_some] at h ⊢ <;> cases h
    simp [Refusal.code]

/-! ## Requests in progress -/

namespace Cluster

/-- A root block that was fetched: one that was current, and is the current one if it has its
version. -/
def Known (s : Cluster A D) (block : Block A) : Prop :=
  block.map ∈ s.roots ∧ block.version ≤ s.root.version ∧
    (block.version = s.root.version → block.map = s.root.map)

end Cluster

open Cluster

/-- What is known of a request in progress. -/
def Request.Sound (s : Cluster A D) (r : Request A D) : Prop :=
  r.since < s.roots.length ∧
    match r.call with
    | .insert opType _ _ => opType ≠ .DELETE
    | .root op => op.Stores
    | .drop op block km a => op.Stores ∧ s.Known block ∧ op.turn block.map = .ok (some a, km)
    | .update op block km =>
      op.Stores ∧ s.Known block ∧ ∃ old, op.turn block.map = .ok (old, km)
    | .undo op refusal => ∃ m ∈ s.during r.since, op.RefusedBy refusal.code (held m)
    | .fetch_value key _ _ _ a => ∃ m ∈ s.during r.since, held m key = some a
    | .fetch_root .. => True

/-- The operation of a request that succeeded. -/
def Stored.success (r : Stored A) : Option (Operation A) :=
  match r.reply with
  | .ok _ => some r.op
  | .error _ => none

/-- A request that returned with an error, which a root map that was current justifies. -/
def Stored.Justified (r : Stored A) : Prop :=
  ∃ code, r.reply = .error code ∧
    (code = .AlreadyExists → ∃ m ∈ r.during, held m r.op.key ≠ none) ∧
    (code = .NotFound → ∃ m ∈ r.during, held m r.op.key = none)

namespace Cluster

structure Sound (s : Cluster A D) : Prop where
  last : ∃ before, s.roots = before ++ [s.root.map]
  proper : ∀ km ∈ s.roots, Proper km
  requests : ∀ r ∈ s.requests, r.Sound s

/-- The operations that succeeded, in the order in which they returned. -/
def succeeded (s : Cluster A D) : List (Operation A) := s.stored.filterMap Stored.success

/-- The requests behave as on one atomic map: those that succeeded take effect in the order in which
they returned, each of them allowed, and those that were refused saw a map that refuses them. -/
structure Atomic (s : Cluster A D) : Prop where
  legal : Legal (fun _ => none) s.succeeded
  final : held s.root.map = s.succeeded.foldl Operation.apply fun _ => none
  exists_already : ∀ r ∈ s.stored, r.reply = .error .AlreadyExists →
    ∃ m ∈ r.during, held m r.op.key ≠ none
  not_found : ∀ r ∈ s.stored, r.reply = .error .NotFound →
    ∃ m ∈ r.during, held m r.op.key = none

variable {s s' : Cluster A D}

theorem Sound.root_mem (hs : s.Sound) : s.root.map ∈ s.roots := by
  obtain ⟨before, hroots⟩ := hs.last
  rw [hroots]
  exact List.mem_append_right _ (List.mem_singleton.mpr rfl)

theorem Sound.root_during (hs : s.Sound) {since : Nat} (h : since < s.roots.length) :
    s.root.map ∈ s.during since := by
  obtain ⟨before, hroots⟩ := hs.last
  unfold during
  rw [hroots] at h ⊢
  rw [List.length_append, List.length_singleton] at h
  rw [List.drop_append_of_le_length (Nat.le_of_lt_succ h)]
  exact List.mem_append_right _ (List.mem_singleton.mpr rfl)

theorem Sound.length_pos (hs : s.Sound) :
    s.roots.length - 1 < s.roots.length := by
  obtain ⟨before, hroots⟩ := hs.last
  rw [hroots, List.length_append, List.length_singleton]
  omega

theorem Sound.root_known (hs : s.Sound) : s.Known s.root :=
  ⟨hs.root_mem, le_rfl, fun _ => rfl⟩

theorem Sound.root_proper (hs : s.Sound) : Proper s.root.map :=
  hs.proper s.root.map hs.root_mem

/-! ## Steps that do not update the root block -/

/-- Only the requests change: those in progress are sound, and those that returned have an error
that is justified. -/
structure Quiet (s s' : Cluster A D) : Prop where
  root : s'.root = s.root
  roots : s'.roots = s.roots
  requests : ∀ r ∈ s'.requests, r ∈ s.requests ∨ r.Sound s
  stored : ∃ new, s'.stored = s.stored ++ new ∧ ∀ r ∈ new, r.Justified

theorem Quiet.starts {call : Call A D}
    (h : Request.Sound s { call := call, since := s.roots.length - 1 }) :
    Quiet s (s.starts call) where
  root := rfl
  roots := rfl
  requests := by
    intro r hr
    rcases List.mem_append.mp hr with hr | hr
    · exact Or.inl hr
    · rw [List.mem_singleton.mp hr]
      exact Or.inr h
  stored := ⟨[], (List.append_nil _).symm, by simp⟩

theorem Quiet.goes {i : Nat} {r : Request A D} {call : Call A D}
    (h : Request.Sound s { r with call := call }) : Quiet s (s.goes i r call) where
  root := rfl
  roots := rfl
  requests := by
    intro r' hr'
    rcases List.mem_or_eq_of_mem_set hr' with hr' | rfl
    · exact Or.inl hr'
    · exact Or.inr h
  stored := ⟨[], (List.append_nil _).symm, by simp⟩

theorem Quiet.refl (s : Cluster A D) : Quiet s s where
  root := rfl
  roots := rfl
  requests := fun _ hr => Or.inl hr
  stored := ⟨[], (List.append_nil _).symm, by simp⟩

theorem Quiet.ends (i : Nat) (s : Cluster A D) : Quiet s (s.ends i) where
  root := rfl
  roots := rfl
  requests := fun _ hr => Or.inl (List.mem_of_mem_eraseIdx hr)
  stored := ⟨[], (List.append_nil _).symm, by simp⟩

theorem Quiet.fetches (h : Quiet s s') (key : Key) (reply : Except Code (Option D)) (since : Nat) :
    Quiet s (s'.fetches key reply since) where
  root := h.root
  roots := h.roots
  requests := h.requests
  stored := h.stored

theorem Quiet.values (h : Quiet s s') (values : Table A D) (inserted : List (A × D)) :
    Quiet s { s' with values := values, inserted := inserted } where
  root := h.root
  roots := h.roots
  requests := h.requests
  stored := h.stored

theorem Quiet.returns (hs : Quiet s s') {code : Code} {since : Nat}
    (h : code = .AlreadyExists ∨ code = .NotFound →
      ∃ m ∈ s.during since, op.RefusedBy code (held m)) :
    Quiet s (s'.returns op (.error code) since) where
  root := hs.root
  roots := hs.roots
  requests := hs.requests
  stored := by
    have hduring : s'.during since = s.during since := by
      unfold during
      rw [hs.roots]
    obtain ⟨new, hnew, hjustified⟩ := hs.stored
    refine ⟨new ++ [{ op := op, reply := .error code, during := s'.during since }], ?_, ?_⟩
    · unfold Cluster.returns
      rw [hnew, List.append_assoc]
    · intro r hr
      rcases List.mem_append.mp hr with hr | hr
      · exact hjustified r hr
      · rw [List.mem_singleton.mp hr, hduring]
        refine ⟨code, rfl, fun hcode => ?_, fun hcode => ?_⟩
        · obtain ⟨m, hm, hrefused⟩ := h (Or.inl hcode)
          exact ⟨m, hm, hrefused.1 hcode⟩
        · obtain ⟨m, hm, hrefused⟩ := h (Or.inr hcode)
          exact ⟨m, hm, hrefused.2 hcode⟩

theorem Sound.replay (hs : s.Sound) {i : Nat} {r : Request A D} (hsince : r.since < s.roots.length)
    (hop : op.Stores) :
    Quiet s (s.replay i r op s.root) := by
  unfold Cluster.replay
  cases hturn : op.turn s.root.map with
  | error refusal =>
    obtain ⟨hrefused, -⟩ := turn_error hs.root_proper hturn
    unfold Cluster.refused
    dsimp only
    split
    · exact (Quiet.ends i s).returns fun _ => ⟨s.root.map, hs.root_during hsince, hrefused⟩
    · exact Quiet.goes ⟨hsince, s.root.map, hs.root_during hsince, hrefused⟩
  | ok turned =>
    obtain ⟨old, km⟩ := turned
    cases old with
    | none => exact Quiet.goes ⟨hsince, hop, hs.root_known, none, hturn⟩
    | some a => exact Quiet.goes ⟨hsince, hop, hs.root_known, hturn⟩

end Cluster

open Cluster

theorem Request.Sound.congr {s s' : Cluster A D} {r : Request A D} (hr : r.Sound s)
    (hroot : s'.root = s.root) (hroots : s'.roots = s.roots) : r.Sound s' := by
  unfold Request.Sound Known during at hr ⊢
  rw [hroot, hroots]
  exact hr

theorem Request.Sound.update {s : Cluster A D} {r : Request A D} (hr : r.Sound s)
    (km : KeyMap A) : r.Sound (s.update km) := by
  have hknown : ∀ block, s.Known block → (s.update km).Known block := by
    rintro block ⟨hmem, hle, -⟩
    have hlt : block.version < s.root.version + 1 := Int.lt_add_one_of_le hle
    exact ⟨List.mem_append_left _ hmem, hlt.le, fun heq => absurd heq hlt.ne⟩
  obtain ⟨hsince, hcall⟩ := hr
  have hlength : (s.update km).roots.length = s.roots.length + 1 := by
    simp [Cluster.update]
  have hduring : ∀ {m}, m ∈ s.during r.since → m ∈ (s.update km).during r.since := by
    intro m hm
    unfold during Cluster.update
    rw [List.drop_append_of_le_length hsince.le]
    exact List.mem_append_left _ hm
  refine ⟨by omega, ?_⟩
  cases hc : r.call with
  | drop op block km' a | update op block km' =>
    simp only [hc] at hcall
    exact ⟨hcall.1, hknown block hcall.2.1, hcall.2.2⟩
  | undo op refusal =>
    simp only [hc] at hcall
    obtain ⟨m, hm, hrefused⟩ := hcall
    exact ⟨m, hduring hm, hrefused⟩
  | fetch_value key v w version a =>
    simp only [hc] at hcall
    obtain ⟨m, hm, hheld⟩ := hcall
    exact ⟨m, hduring hm, hheld⟩
  | _ =>
    simp only [hc] at hcall
    exact hcall

namespace Cluster

variable {s s' : Cluster A D} {i : Nat}

theorem Sound.quiet (hs : s.Sound) (h : Quiet s s') : s'.Sound where
  last := by
    rw [h.roots, h.root]
    exact hs.last
  proper := by
    rw [h.roots]
    exact hs.proper
  requests := fun r hr =>
    ((h.requests r hr).elim (hs.requests r) id).congr h.root h.roots

theorem succeeded_append {new : List (Stored A)} (h : s'.stored = s.stored ++ new)
    (hnew : ∀ r ∈ new, r.Justified) :
    s'.succeeded = s.succeeded := by
  have hnil : new.filterMap Stored.success = [] := by
    refine List.filterMap_eq_nil_iff.mpr fun r hr => ?_
    obtain ⟨code, hreply, -⟩ := hnew r hr
    unfold Stored.success
    rw [hreply]
  unfold succeeded
  rw [h, List.filterMap_append, hnil, List.append_nil]

theorem Atomic.quiet (hs : s.Atomic) (h : Quiet s s') : s'.Atomic := by
  obtain ⟨new, hstored, hnew⟩ := h.stored
  have hsucceeded := succeeded_append hstored hnew
  constructor
  · rw [hsucceeded]
    exact hs.legal
  · rw [hsucceeded, h.root]
    exact hs.final
  · intro r hr hreply
    rw [hstored] at hr
    rcases List.mem_append.mp hr with hr | hr
    · exact hs.exists_already r hr hreply
    · obtain ⟨code, hcode, hexists, -⟩ := hnew r hr
      rw [hreply] at hcode
      cases hcode
      exact hexists rfl
  · intro r hr hreply
    rw [hstored] at hr
    rcases List.mem_append.mp hr with hr | hr
    · exact hs.not_found r hr hreply
    · obtain ⟨code, hcode, -, hfound⟩ := hnew r hr
      rw [hreply] at hcode
      cases hcode
      exact hfound rfl

/-! ## Steps -/

theorem Quiet.put (hs : s.Sound) {opType : OperationType} (hop : opType ≠ .DELETE) (key : Key)
    (value : Option D) :
    Quiet s (s.put opType key value) := by
  have hinvalid : Quiet s (s.returns { opType := opType, key := key }
      (.error .InvalidArgument) (s.roots.length - 1)) := (Quiet.refl s).returns (by simp)
  unfold Cluster.put
  split
  · exact hinvalid
  · exact hinvalid
  · exact Quiet.starts ⟨hs.length_pos, hop⟩

theorem Quiet.fetch_root (hs : s.Sound) {r : Request A D} {key : Key} {lastVersion lastTime : Int}
    (hsince : r.since < s.roots.length) :
    Quiet s (s.fetch_root i r key lastVersion lastTime s.root) := by
  unfold Cluster.fetch_root
  split
  next a hfind =>
    have hheld : held s.root.map key = some a := by
      unfold held
      rw [hfind]
      rfl
    exact Quiet.goes ⟨hsince, s.root.map, hs.root_during hsince, hheld⟩
  next => exact (Quiet.ends i s).fetches _ _ _

/-- The request `i` has its update of the root block accepted. -/
def Accepts (s : Cluster A D) (i : Nat) (s' : Cluster A D) : Prop :=
  ∃ r op old km, s.requests[i]? = some r ∧ op.Stores ∧ op.turn s.root.map = .ok (old, km) ∧
    s' = ((s.update km).ends i).returns op (.ok ()) r.since

theorem serve_cases [DecidableEq A] (hs : s.Sound) (h : s.serve i = some s') :
    Quiet s s' ∨ s.Accepts i s' := by
  unfold serve at h
  split at h
  next => cases h
  next r hr =>
    obtain ⟨hsince, hcall⟩ := hs.requests r (List.mem_of_getElem? hr)
    split at h
    next => cases h
    next op hc =>
      cases h
      rw [hc] at hcall
      exact Or.inl (hs.replay hsince hcall)
    next op block km a hc =>
      cases h
      rw [hc] at hcall
      obtain ⟨hop, hknown, hturn⟩ := hcall
      have hgoes : Quiet s (s.goes i r (.update op block km)) :=
        Quiet.goes ⟨hsince, hop, hknown, some a, hturn⟩
      exact Or.inl (hgoes.values _ _)
    next op block km hc =>
      rw [hc] at hcall
      obtain ⟨hop, hknown, old, hturn⟩ := hcall
      split at h
      next hversion =>
        cases h
        rw [hknown.2.2 hversion] at hturn
        exact Or.inr ⟨r, op, old, km, hr, hop, hturn, rfl⟩
      next =>
        cases h
        exact Or.inl (hs.replay hsince hop)
    next op refusal hc =>
      cases h
      rw [hc] at hcall
      exact Or.inl (((Quiet.ends i s).values _ s.inserted).returns fun _ => hcall)
    next key lastVersion lastTime hc =>
      cases h
      exact Or.inl (Quiet.fetch_root hs hsince)
    next key v w version a hc =>
      obtain ⟨d, -, rfl⟩ := Option.map_eq_some_iff.mp h
      exact Or.inl ((Quiet.ends i s).fetches _ _ _)

theorem Quiet.inserts [DecidableEq A] {a : A} (hs : s.Sound) (h : s.inserts i a = some s') :
    Quiet s s' := by
  unfold Cluster.inserts at h
  split at h
  next => cases h
  next r hr =>
    obtain ⟨hsince, hcall⟩ := hs.requests r (List.mem_of_getElem? hr)
    split at h
    next opType key value hc =>
      split at h
      · cases h
      · cases h
        have hgoes : Quiet s (s.goes i r
            (.root { opType := opType, key := key, store := { address := some a } })) :=
          Quiet.goes ⟨hsince, by simpa [Operation.Stores, hc] using hcall⟩
        exact hgoes.values _ _
    next => cases h

theorem Quiet.fails {now : Int} (hs : s.Sound) (h : s.fails i now = some s') : Quiet s s' := by
  unfold Cluster.fails at h
  split at h
  next => cases h
  next r hr =>
    obtain ⟨hsince, hcall⟩ := hs.requests r (List.mem_of_getElem? hr)
    split at h
    next =>
      cases h
      exact (Quiet.ends i s).returns (by simp)
    next =>
      cases h
      exact (Quiet.ends i s).returns (by simp)
    next op block km a hc =>
      cases h
      rw [hc] at hcall
      obtain ⟨hop, hknown, hturn⟩ := hcall
      exact Quiet.goes ⟨hsince, hop, hknown, some a, hturn⟩
    next op block km hc =>
      cases h
      refine (Quiet.ends i s).returns fun hcode => ?_
      split at hcode <;> simp at hcode
    next op refusal hc =>
      cases h
      rw [hc] at hcall
      exact (Quiet.ends i s).returns fun _ => hcall
    next =>
      cases h
      exact (Quiet.ends i s).fetches _ _ _
    next key lastVersion lastTime version a hc =>
      split_ifs at h <;> cases h
      · exact Quiet.goes ⟨hsince, trivial⟩
      · exact (Quiet.ends i s).fetches _ _ _
      · exact (Quiet.ends i s).fetches _ _ _

theorem step_cases [DecidableEq A] {act : Action A D} (hs : s.Sound) (h : s.step act = some s') :
    Quiet s s' ∨ ∃ i, act = .serve i ∧ s.Accepts i s' := by
  cases act with
  | Insert key value | Update key value | Upsert key value =>
    cases h
    exact Or.inl (Quiet.put hs (by simp) key value)
  | Delete key =>
    cases h
    left
    unfold Cluster.Delete
    split
    · exact (Quiet.refl s).returns (by simp)
    · exact Quiet.starts ⟨hs.length_pos, by simp [Operation.Stores]⟩
  | Fetch key now =>
    cases h
    left
    unfold Cluster.Fetch
    split
    · exact (Quiet.refl s).fetches _ _ _
    · exact Quiet.starts ⟨hs.length_pos, trivial⟩
  | serve i => exact (serve_cases hs h).imp id fun haccepts => ⟨i, rfl, haccepts⟩
  | inserts i a => exact Or.inl (Quiet.inserts hs h)
  | fails i now => exact Or.inl (Quiet.fails hs h)

theorem Sound.accepts (hs : s.Sound) (h : s.Accepts i s') :
    s'.Sound := by
  obtain ⟨r, op, old, km, -, hop, hturn, rfl⟩ := h
  obtain ⟨-, -, -, hproper⟩ := turn_ok hs.root_proper hop hturn
  constructor
  · exact ⟨s.roots, rfl⟩
  · intro m hm
    rcases List.mem_append.mp hm with hm | hm
    · exact hs.proper m hm
    · rw [List.mem_singleton.mp hm]
      exact hproper
  · intro r' hr'
    exact ((hs.requests r' (List.mem_of_mem_eraseIdx hr')).update km).congr rfl rfl

theorem Sound.step [DecidableEq A] {act : Action A D} (hs : s.Sound) (h : s.step act = some s') :
    s'.Sound := by
  rcases step_cases hs h with hquiet | ⟨i, -, haccepts⟩
  · exact hs.quiet hquiet
  · exact hs.accepts haccepts

theorem Atomic.accepts (hs : s.Sound) (ha : s.Atomic) (h : s.Accepts i s') : s'.Atomic := by
  obtain ⟨r, op, old, km, -, hop, hturn, rfl⟩ := h
  obtain ⟨-, hallowed, hheld, -⟩ := turn_ok hs.root_proper hop hturn
  have hsucceeded : (((s.update km).ends i).returns op (.ok ()) r.since).succeeded =
      s.succeeded ++ [op] := by
    unfold succeeded Cluster.returns
    rw [List.filterMap_append]
    rfl
  constructor
  · rw [hsucceeded, legal_append, ← ha.final]
    exact ⟨ha.legal, hallowed⟩
  · rw [hsucceeded, List.foldl_append, ← ha.final]
    exact hheld
  · intro r' hr' hreply
    rcases List.mem_append.mp hr' with hr' | hr'
    · exact ha.exists_already r' hr' hreply
    · rw [List.mem_singleton.mp hr'] at hreply
      cases hreply
  · intro r' hr' hreply
    rcases List.mem_append.mp hr' with hr' | hr'
    · exact ha.not_found r' hr' hreply
    · rw [List.mem_singleton.mp hr'] at hreply
      cases hreply

/-! ## Runs -/

theorem new_server_sound (version : Int) : (NewServer version : Cluster A D).Sound where
  last := ⟨[], rfl⟩
  proper := by
    intro km hkm key desc hfind
    rw [List.mem_singleton.mp hkm] at hfind
    simp [find] at hfind
  requests := by simp [NewServer]

/-- The requests of any number of servers behave as on one atomic map. -/
theorem the_servers_are_one_atomic_map [DecidableEq A] {version : Int} {acts : List (Action A D)}
    {s : Cluster A D} (hrun : Run step anyStep (NewServer version) acts s) : s.Atomic := by
  have hI : s.Sound ∧ s.Atomic := by
    refine hrun.invariant (I := fun s => s.Sound ∧ s.Atomic) ⟨new_server_sound version, ?_⟩ ?_
    · constructor
      · trivial
      · funext key
        simp [NewServer, held, find, succeeded]
      · simp [NewServer]
      · simp [NewServer]
    · rintro s act s' ⟨hs, ha⟩ - hstep
      refine ⟨hs.step hstep, ?_⟩
      rcases step_cases hs hstep with hquiet | ⟨i, -, haccepts⟩
      · exact ha.quiet hquiet
      · exact Atomic.accepts hs ha haccepts
  exact hI.2

/-- Two insertions of a key and a deletion: the second insertion conflicts and is refused. -/
theorem two_insertions_are_atomic :
    ∃ s : Cluster Nat Nat, s.Atomic ∧
      s.succeeded.map Operation.opType = [.INSERT, .DELETE] ∧ s.stored.length = 3 := by
  have hrun : ((exec step anyStep (NewServer 0)
      [.Insert ['k'] (some 1), .Insert ['k'] (some 2), .inserts 0 10, .inserts 1 11, .serve 0,
        .serve 1, .serve 0, .serve 0, .serve 0, .Delete ['k'], .serve 0, .serve 0,
        .serve 0]).map fun s : Cluster Nat Nat =>
          (s.succeeded.map Operation.opType, s.stored.length)) =
            some ([.INSERT, .DELETE], 3) := by decide
  obtain ⟨s, hs, heq⟩ := Run.of_exec_map hrun
  rw [Prod.mk.injEq] at heq
  exact ⟨s, the_servers_are_one_atomic_map hs, heq⟩

end Cluster

end memo.kvs
