-- The listing of the keys: `kvServer.List`, and a client that pages through them while they
-- are inserted and deleted.
import Memo.KVServer
import Memo.Paging
import Mathlib.Data.Char
import Mathlib.Data.List.Lex
import Mathlib.Data.List.Sort

open stores runs paging

namespace memo.kvs

variable {A D : Type}

/-! ## The code -/

structure ListRequest where
  Prefix : Key := []
  Marker : Key := []
  Delimiter : Key := []
  MaxKeys : Nat := 0

/-- The keys of the items, and the rest of the response. -/
structure ListResponse where
  Items : List Key := []
  Prefixes : List Key := []
  Truncated : Bool := false
deriving DecidableEq

/-- `strings.Index`, where -1 is none. -/
def Index (sep : Key) : Key → Option Nat
  | [] => if sep = [] then some 0 else none
  | c :: s => if sep.isPrefixOf (c :: s) then some 0 else (Index sep s).map (· + 1)

/-- The part of a key up to the delimiter, if it is to be reported. -/
def ListRequest.upToDelimiter (req : ListRequest) (k : Key) : Option Key :=
  if req.Delimiter = [] then none
  else
    let rest := k.drop req.Prefix.length
    match Index req.Delimiter rest with
    | some (pos + 1) => some (rest.take (pos + 2))
    | _ => none

/-- The item of a key is added to a response. -/
def ListRequest.add (req : ListRequest) (k : Key) (res : ListResponse) : ListResponse where
  Items := res.Items ++ [k]
  Prefixes :=
    match req.upToDelimiter k with
    | some p => if p ∈ res.Prefixes then res.Prefixes else res.Prefixes ++ [p]
    | none => res.Prefixes
  Truncated := res.Truncated

/-- The loop of `List` over the sorted keys. -/
def ListRequest.loop (req : ListRequest) :
    List Key → (markerFound : Bool) → ListResponse → ListResponse
  | [], _, res => res
  | k :: keys, markerFound, res =>
    if ¬ req.Prefix.isPrefixOf k then req.loop keys markerFound res
    else if req.Marker ≠ [] ∧ ¬ markerFound then req.loop keys (k == req.Marker) res
    else if 0 < req.MaxKeys ∧ (res.Items ++ [k]).length = req.MaxKeys then
      { req.add k res with Truncated := keys.head?.any req.Prefix.isPrefixOf }
    else req.loop keys markerFound (req.add k res)

def sorted (km : KeyMap A) : List Key := km.keys.insertionSort (· ≤ ·)

/-- `List` with the root map that it fetched. -/
def kvServer.List (km : KeyMap A) (req : ListRequest) : ListResponse :=
  req.loop (sorted km) false {}

/-! ## A client -/

/-- The keys with the prefix that a call lists, and its page. -/
def ListRequest.page (req : ListRequest) (km : KeyMap A) : Page Key where
  keys := (sorted km).filter req.Prefix.isPrefixOf
  marker := req.Marker
  items := (kvServer.List km req).Items
  truncated := (kvServer.List km req).Truncated

/-- The pages that a client gets from calls that see these root maps, until one is not truncated.
The marker of each call is the last key of the page before. -/
def ListRequest.pages (req : ListRequest) : List (KeyMap A) → List (Page Key)
  | [] => []
  | km :: kms =>
    let page := req.page km
    page :: if page.truncated then { req with Marker := page.last }.pages kms else []

/-- A call starts at the first key, or the root map still has the marker, or no key after it. -/
def Marked (page : Page Key) : Prop :=
  page.marker = [] ∨ page.marker ∈ page.keys ∨ ∀ k ∈ page.keys, k ≤ page.marker

instance : DecidablePred Marked := fun _ => inferInstanceAs (Decidable (_ ∨ _ ∨ _))

/-! ## The order of the keys -/

theorem mem_sorted {km : KeyMap A} {k : Key} : k ∈ sorted km ↔ k ∈ km := by
  rw [sorted, List.mem_insertionSort, AList.mem_keys]

theorem sorted_increasing (km : KeyMap A) : (sorted km).Pairwise (· < ·) := by
  have hle : (sorted km).Pairwise (· ≤ ·) := List.pairwise_insertionSort _ _
  have hnodup : (sorted km).Nodup := (List.perm_insertionSort _ _).nodup_iff.mpr km.keys_nodup
  exact hle.imp₂ (fun _ _ h hne => lt_of_le_of_ne h hne) hnodup

theorem cons_le_cons_iff {c d : Char} {k m : Key} :
    c :: k ≤ d :: m ↔ c < d ∨ c = d ∧ k ≤ m := by
  rw [← not_lt, ← not_lt]
  exact List.cons_le_cons_iff

theorem prefix_of_between {p k m n : Key} (hk : p <+: k) (hn : p <+: n) (hkm : k ≤ m)
    (hmn : m ≤ n) : p <+: m := by
  induction p generalizing k m n with
  | nil => exact List.nil_prefix
  | cons c p ih =>
    obtain ⟨k, rfl⟩ := hk
    obtain ⟨n, rfl⟩ := hn
    cases m with
    | nil => exact absurd (List.nil_lt_cons c _) (not_lt.mpr hkm)
    | cons d m =>
      rw [List.cons_append, cons_le_cons_iff] at hkm hmn
      rcases hkm with hcd | ⟨rfl, hkm⟩
      · rcases hmn with hdc | ⟨rfl, -⟩
        · exact absurd hcd (lt_asymm hdc)
        · exact absurd hcd (lt_irrefl _)
      · rcases hmn with hcc | ⟨-, hmn⟩
        · exact absurd hcc (lt_irrefl _)
        · rw [List.cons_prefix_cons]
          exact ⟨rfl, ih (List.prefix_append p k) (List.prefix_append p n) hkm hmn⟩

/-! ## The loop -/

namespace ListRequest

variable {req : ListRequest} {found : Bool} {res : ListResponse} {k : Key} {keys : List Key}

/-- The keys with the prefix. -/
def listed (req : ListRequest) (keys : List Key) : List Key := keys.filter req.Prefix.isPrefixOf

theorem listed_cons_of_starts (h : req.Prefix.isPrefixOf k = true) :
    req.listed (k :: keys) = k :: req.listed keys := List.filter_cons_of_pos h

theorem listed_cons_of_not (h : ¬ req.Prefix.isPrefixOf k = true) :
    req.listed (k :: keys) = req.listed keys := List.filter_cons_of_neg h

theorem head_listed (hs : (k :: keys).Pairwise (· < ·)) (hk : req.Prefix.isPrefixOf k = true) :
    keys.head?.any req.Prefix.isPrefixOf = true ↔ 0 < (req.listed keys).length := by
  rw [List.length_pos_iff_exists_mem]
  cases keys with
  | nil => simp [listed]
  | cons k' keys =>
    rw [List.head?_cons, Option.any_some]
    constructor
    · exact fun h => ⟨k', by simp [listed, h]⟩
    · rintro ⟨m, hm⟩
      obtain ⟨hmem, hm⟩ := List.mem_filter.mp hm
      have hle : k ≤ k' := le_of_lt ((List.pairwise_cons.mp hs).1 k' List.mem_cons_self)
      have hle' : k' ≤ m := by
        rcases List.mem_cons.mp hmem with rfl | hmem
        · exact le_refl _
        · exact le_of_lt ((List.pairwise_cons.mp (List.pairwise_cons.mp hs).2).1 m hmem)
      rw [List.isPrefixOf_iff_prefix] at hk hm ⊢
      exact prefix_of_between hk hm hle hle'

theorem loop_found (hs : keys.Pairwise (· < ·)) (hfound : req.Marker = [] ∨ found = true)
    (hroom : res.Items.length < req.MaxKeys) (ht : res.Truncated = false) :
    (req.loop keys found res).Items =
        res.Items ++ (req.listed keys).take (req.MaxKeys - res.Items.length) ∧
      ((req.loop keys found res).Truncated = true ↔
        req.MaxKeys - res.Items.length < (req.listed keys).length) := by
  induction keys generalizing res with
  | nil => simp [loop, listed, ht]
  | cons k keys ih =>
    have hrest := (List.pairwise_cons.mp hs).2
    rw [loop]
    by_cases hk : req.Prefix.isPrefixOf k = true
    · rw [if_neg (by simp [hk]), listed_cons_of_starts hk]
      have hmarker : ¬ (req.Marker ≠ [] ∧ ¬ found = true) := by tauto
      rw [if_neg hmarker]
      have hadd : (req.add k res).Items = res.Items ++ [k] := rfl
      have hlength : (res.Items ++ [k]).length = res.Items.length + 1 := List.length_append
      obtain ⟨room, hroom'⟩ := Nat.exists_eq_add_of_lt hroom
      have hleft : req.MaxKeys - res.Items.length = room + 1 := by omega
      rw [hleft, List.take_succ_cons, List.length_cons, Nat.add_lt_add_iff_right]
      split_ifs with hmax
      · obtain rfl : room = 0 := by omega
        rw [hadd, head_listed hs hk, List.take_zero]
        exact ⟨rfl, Iff.rfl⟩
      · have hroom'' : (req.add k res).Items.length < req.MaxKeys := by rw [hadd]; omega
        obtain ⟨hitems, htrunc⟩ := ih hrest hroom'' ht
        have hleft' : req.MaxKeys - (req.add k res).Items.length = room := by rw [hadd]; omega
        rw [hleft'] at hitems htrunc
        refine ⟨?_, htrunc⟩
        rw [hitems, hadd, List.append_assoc, List.singleton_append]
    · rw [if_pos (by simpa using hk), listed_cons_of_not hk]
      exact ih hrest hroom ht

theorem loop_marker {front : List Key} (hm : req.Marker ≠ [])
    (hp : req.Prefix.isPrefixOf req.Marker = true) (hfront : req.Marker ∉ front) :
    req.loop (front ++ req.Marker :: keys) false res = req.loop keys true res := by
  induction front with
  | nil => simp [loop, hm, hp]
  | cons k front ih =>
    rw [List.mem_cons, not_or] at hfront
    have hne : (k == req.Marker) = false := beq_eq_false_iff_ne.mpr (Ne.symm hfront.1)
    simp [loop, hm, hne, ih hfront.2]

theorem loop_missed (hm : req.Marker ≠ []) (hmissed : req.Marker ∉ req.listed keys) :
    req.loop keys false res = res := by
  induction keys with
  | nil => rfl
  | cons k keys ih =>
    rw [loop]
    by_cases hk : req.Prefix.isPrefixOf k = true
    · rw [listed_cons_of_starts hk, List.mem_cons, not_or] at hmissed
      have hne : (k == req.Marker) = false := beq_eq_false_iff_ne.mpr (Ne.symm hmissed.1)
      simp [hk, hm, hne, ih hmissed.2]
    · rw [listed_cons_of_not hk] at hmissed
      simp [hk, ih hmissed]

/-! ## One page -/

variable {km : KeyMap A}

theorem page_keys (req : ListRequest) (km : KeyMap A) :
    (req.page km).keys = req.listed (sorted km) := rfl

theorem page_sorted (req : ListRequest) (km : KeyMap A) :
    (req.page km).keys.Pairwise (· < ·) := (sorted_increasing km).filter _

theorem page_missed (hm : req.Marker ≠ []) (hmissed : req.Marker ∉ (req.page km).keys) :
    (req.page km).items = [] ∧ (req.page km).truncated = false := by
  rw [page_keys] at hmissed
  unfold page kvServer.List
  rw [loop_missed hm hmissed]
  exact ⟨rfl, rfl⟩

theorem page_pos (hne : [] ∉ km) (hk : k ∈ (req.page km).keys) : [] < k := by
  cases k with
  | nil => exact absurd (mem_sorted.mp (List.mem_filter.mp hk).1) hne
  | cons c k => exact List.nil_lt_cons c k

theorem page_right_of_loop {left : List Key} (hmax : 1 ≤ req.MaxKeys)
    (hloop : req.loop (sorted km) false {} = req.loop left found {})
    (hs : left.Pairwise (· < ·)) (hfound : req.Marker = [] ∨ found = true)
    (hafter : after req.Marker (req.page km).keys = req.listed left) :
    (req.page km).Right req.MaxKeys := by
  have hroom : ({} : ListResponse).Items.length < req.MaxKeys := hmax
  obtain ⟨hitems, htrunc⟩ := loop_found hs hfound hroom rfl
  refine Page.right_of_take (page_sorted req km) ?_ ?_
  · change (req.loop (sorted km) false {}).Items = (after req.Marker _).take _
    rw [hloop, hitems, hafter]
    rfl
  · change (req.loop (sorted km) false {}).Truncated = true ↔ _ < (after req.Marker _).length
    rw [hloop, htrunc, hafter]
    rfl

theorem page_right (hmax : 1 ≤ req.MaxKeys) (hne : [] ∉ km) (hmarked : Marked (req.page km)) :
    (req.page km).Right req.MaxKeys := by
  have hs := sorted_increasing km
  by_cases hm : req.Marker = []
  · refine page_right_of_loop hmax rfl hs (Or.inl hm) ?_
    rw [hm, after_all fun k => page_pos hne, page_keys]
  · by_cases hmem : req.Marker ∈ (req.page km).keys
    · obtain ⟨hkey, hp⟩ := List.mem_filter.mp hmem
      obtain ⟨front, left, hsplit⟩ := List.append_of_mem hkey
      rw [hsplit] at hs
      have hfront : req.Marker ∉ front := fun h =>
        lt_irrefl _ ((List.pairwise_append.mp hs).2.2 _ h _ List.mem_cons_self)
      have hleft := (List.pairwise_cons.mp (List.pairwise_append.mp hs).2.1).2
      refine page_right_of_loop hmax ?_ hleft (Or.inr rfl) ?_
      · rw [hsplit, loop_marker hm hp hfront]
      · have hkeys := page_sorted req km
        rw [page_keys, hsplit, listed, List.filter_append, List.filter_cons_of_pos hp] at hkeys ⊢
        exact after_marker hkeys
    · obtain ⟨hitems, htrunc⟩ := page_missed hm hmem
      have hle : ∀ k ∈ (req.page km).keys, k ≤ req.Marker := by
        rcases hmarked with h | h | h
        · exact absurd h hm
        · exact absurd h hmem
        · exact h
      have hafter : after (req.page km).marker (req.page km).keys = [] := after_none hle
      refine Page.right_of_take (page_sorted req km) ?_ ?_
      · rw [hitems, hafter, List.take_nil]
      · simp [htrunc, hafter]

theorem marked_of_truncated
    (h : (req.page km).truncated = true ↔ ∃ k ∈ (req.page km).keys, (req.page km).last < k) :
    Marked (req.page km) := by
  by_contra hmarked
  unfold Marked at hmarked
  push Not at hmarked
  obtain ⟨hm, hmem, k, hk, hlt⟩ := hmarked
  obtain ⟨hitems, htrunc⟩ := page_missed hm hmem
  have hlast : (req.page km).last = req.Marker := by
    rw [Page.last, hitems]
    rfl
  rw [h.mpr ⟨k, hk, hlast ▸ hlt⟩] at htrunc
  cases htrunc

/-! ## All pages -/

theorem pages_chain (req : ListRequest) (kms : List (KeyMap A)) :
    Chain req.Marker (req.pages kms) := by
  induction kms generalizing req with
  | nil => trivial
  | cons km kms ih =>
    rw [pages]
    refine ⟨rfl, ?_, ?_⟩
    · intro hne
      by_contra htrunc
      exact hne (if_neg htrunc)
    · split_ifs
      · exact ih { req with Marker := (req.page km).last }
      · trivial

theorem mem_pages {kms : List (KeyMap A)} {p : Page Key} (h : p ∈ req.pages kms) :
    ∃ km ∈ kms, ∃ marker, p = { req with Marker := marker }.page km := by
  induction kms generalizing req with
  | nil => cases h
  | cons km kms ih =>
    rw [pages, List.mem_cons] at h
    rcases h with rfl | h
    · exact ⟨km, List.mem_cons_self, req.Marker, rfl⟩
    · split_ifs at h
      · obtain ⟨km', hkm', marker, rfl⟩ := ih h
        exact ⟨km', List.mem_cons_of_mem _ hkm', marker, rfl⟩
      · cases h

theorem pages_paged_iff {kms : List (KeyMap A)} (hmarker : req.Marker = [])
    (hmax : 1 ≤ req.MaxKeys) (hne : ∀ km ∈ kms, [] ∉ km) :
    Paged req.MaxKeys (req.pages kms) ↔ ∀ p ∈ req.pages kms, Marked p := by
  constructor
  · intro h p hp
    have htrunc := h.truncated p hp
    obtain ⟨km, -, marker, rfl⟩ := mem_pages hp
    exact marked_of_truncated htrunc
  · intro h
    refine (pages_chain req kms).paged ?_ ?_
    · intro p hp
      have hmarked := h p hp
      obtain ⟨km, hkm, marker, rfl⟩ := mem_pages hp
      have hmax' : 1 ≤ ({ req with Marker := marker } : ListRequest).MaxKeys := hmax
      exact page_right hmax' (hne km hkm) hmarked
    · intro p hp k hk
      obtain ⟨km, hkm, marker, rfl⟩ := mem_pages hp
      rw [hmarker]
      exact page_pos (hne km hkm) hk

end ListRequest

/-! ## The empty key -/

/-- A request that changes the root map has a key. -/
def Request.Named (r : Request A D) : Prop :=
  match r.call with
  | .insert _ key _ => key ≠ []
  | .root op => op.key ≠ []
  | .drop op _ km _ => op.key ≠ [] ∧ [] ∉ km
  | .update op _ km => op.key ≠ [] ∧ [] ∉ km
  | _ => True

theorem nil_put {km : KeyMap A} {key : Key} {desc : Option (ValueDescriptor A)} (hk : key ≠ [])
    (h : [] ∉ km) : [] ∉ put key desc km := by
  cases desc with
  | none => exact fun hmem => h (AList.mem_erase.mp hmem).2
  | some desc =>
    intro hmem
    rcases AList.mem_insert km |>.mp hmem with heq | hmem
    · exact hk heq.symm
    · exact h hmem

theorem turn_named {op : Operation A} {km km' : KeyMap A} {old : Option A} (hk : op.key ≠ [])
    (h : [] ∉ km) (hturn : op.turn km = .ok (old, km')) : [] ∉ km' := by
  have hput : ∀ desc, [] ∉ put op.key desc km := fun desc => nil_put hk h
  unfold Operation.turn at hturn
  cases htype : op.opType <;> simp only [htype] at hturn <;> split at hturn <;> cases hturn <;>
    exact hput _

namespace Cluster

/-- The empty key is in no root map. -/
structure Named (s : Cluster A D) : Prop where
  root : [] ∉ s.root.map
  roots : ∀ km ∈ s.roots, [] ∉ km
  requests : ∀ r ∈ s.requests, r.Named

namespace Named

variable {s : Cluster A D} {i : Nat} {r : Request A D}

theorem starts (h : s.Named) {call : Call A D}
    (hcall : Request.Named { call := call, since := s.roots.length - 1 }) :
    (s.starts call).Named := by
  refine { h with requests := ?_ }
  intro r hr
  rcases List.mem_append.mp hr with hr | hr
  · exact h.requests r hr
  · rwa [List.mem_singleton.mp hr]

theorem goes (h : s.Named) {call : Call A D} (hcall : Request.Named { r with call := call }) :
    (s.goes i r call).Named := by
  refine { h with requests := ?_ }
  intro r' hr
  rcases List.mem_or_eq_of_mem_set hr with hr | rfl
  · exact h.requests r' hr
  · exact hcall

theorem ends (h : s.Named) : (s.ends i).Named :=
  { h with requests := fun r hr => h.requests r (List.mem_of_mem_eraseIdx hr) }

theorem returns (h : s.Named) {op : Operation A} {reply : Except Code Unit} {since : Nat} :
    (s.returns op reply since).Named := { h with }

theorem fetches (h : s.Named) {key : Key} {reply : Except Code (Option D)} {since : Nat} :
    (s.fetches key reply since).Named := { h with }

theorem values (h : s.Named) {values : Table A D} : { s with values := values }.Named := { h with }

theorem inserted (h : s.Named) {values : Table A D} {inserted : List (A × D)} :
    { s with values := values, inserted := inserted }.Named := { h with }

theorem update (h : s.Named) {km : KeyMap A} (hkm : [] ∉ km) : (s.update km).Named where
  root := hkm
  roots := by
    intro km' hmem
    rcases List.mem_append.mp hmem with hmem | hmem
    · exact h.roots km' hmem
    · rwa [List.mem_singleton.mp hmem]
  requests := h.requests

theorem replay (h : s.Named) {op : Operation A} (hk : op.key ≠ []) :
    (s.replay i r op s.root).Named := by
  unfold Cluster.replay
  split
  · unfold refused
    split
    · exact h.ends.returns
    · exact h.goes trivial
  · exact h.goes ⟨hk, turn_named hk h.root ‹_›⟩
  · exact h.goes ⟨hk, turn_named hk h.root ‹_›⟩

theorem put (h : s.Named) (opType : OperationType) (key : Key) (value : Option D) :
    (s.put opType key value).Named := by
  unfold Cluster.put
  split
  · exact h.returns
  · exact h.returns
  · rename_i value hk
    exact h.starts hk

theorem serve [DecidableEq A] (h : s.Named) {s' : Cluster A D} (hs : s.serve i = some s') :
    s'.Named := by
  unfold Cluster.serve at hs
  split at hs
  · cases hs
  · rename_i r hr
    have hnamed : r.Named := h.requests r (List.mem_of_getElem? hr)
    unfold Request.Named at hnamed
    split at hs <;> rename_i hcall <;> rw [hcall] at hnamed
    · cases hs
    · cases hs
      exact h.replay hnamed
    · cases hs
      exact h.values.goes hnamed
    · split_ifs at hs <;> cases hs
      · exact (h.update hnamed.2).ends.returns
      · exact h.replay hnamed.1
    · cases hs
      exact h.values.ends.returns
    · cases hs
      unfold fetch_root
      split
      · exact h.goes trivial
      · exact h.ends.fetches
    · obtain ⟨d, -, rfl⟩ := Option.map_eq_some_iff.mp hs
      exact h.ends.fetches

theorem inserts [DecidableEq A] (h : s.Named) {a : A} {s' : Cluster A D}
    (hs : s.inserts i a = some s') :
    s'.Named := by
  unfold Cluster.inserts at hs
  split at hs
  · cases hs
  · rename_i r hr
    have hnamed : r.Named := h.requests r (List.mem_of_getElem? hr)
    unfold Request.Named at hnamed
    split at hs
    · rename_i hcall
      rw [hcall] at hnamed
      split_ifs at hs
      cases hs
      exact h.inserted.goes (r := r) hnamed
    · cases hs

theorem fails (h : s.Named) {now : Int} {s' : Cluster A D} (hs : s.fails i now = some s') :
    s'.Named := by
  unfold Cluster.fails at hs
  split at hs
  · cases hs
  · rename_i r hr
    have hnamed : r.Named := h.requests r (List.mem_of_getElem? hr)
    unfold Request.Named at hnamed
    split at hs <;> rename_i hcall <;> rw [hcall] at hnamed
    · cases hs
      exact h.ends.returns
    · cases hs
      exact h.ends.returns
    · cases hs
      exact h.goes hnamed
    · cases hs
      exact h.ends.returns
    · cases hs
      exact h.ends.returns
    · cases hs
      exact h.ends.fetches
    · split_ifs at hs <;> cases hs
      · exact h.goes trivial
      · exact h.ends.fetches
      · exact h.ends.fetches

theorem step [DecidableEq A] (h : s.Named) {act : Action A D} {s' : Cluster A D}
    (hs : Cluster.step s act = some s') : s'.Named := by
  cases act with
  | Insert key value => exact Option.some.inj hs ▸ h.put ..
  | Update key value => exact Option.some.inj hs ▸ h.put ..
  | Upsert key value => exact Option.some.inj hs ▸ h.put ..
  | Delete key =>
    cases hs
    unfold Cluster.Delete
    split_ifs with hk
    · exact h.returns
    · exact h.starts hk
  | Fetch key now =>
    cases hs
    unfold Cluster.Fetch
    split_ifs
    · exact h.fetches
    · exact h.starts trivial
  | serve i => exact h.serve hs
  | inserts i a => exact h.inserts hs
  | fails i now => exact h.fails hs

end Named

variable [DecidableEq A]

theorem run_named {version : Int} {ok : Cluster A D → Action A D → Prop}
    {acts : List (Action A D)} {s : Cluster A D} (hrun : Run step ok (NewServer version) acts s) :
    s.Named := by
  refine hrun.invariant ⟨?_, ?_, ?_⟩ fun s act s' h _ hs => h.step hs
  · exact List.not_mem_nil
  · intro km hkm
    rw [List.mem_singleton.mp hkm]
    exact List.not_mem_nil
  · exact fun r hr => absurd hr List.not_mem_nil

/-- A client misses no key, and sees none twice, when and only when each call finds its marker in
the root map, or no key after it. -/
theorem paging_misses_nothing_iff {version : Int} {acts : List (Action A D)} {s : Cluster A D}
    (hrun : Run step anyStep (NewServer version) acts s) {req : ListRequest}
    {kms : List (KeyMap A)} (hkms : ∀ km ∈ kms, km ∈ s.roots) (hmarker : req.Marker = [])
    (hmax : 1 ≤ req.MaxKeys) :
    Paged req.MaxKeys (req.pages kms) ↔ ∀ p ∈ req.pages kms, Marked p :=
  req.pages_paged_iff hmarker hmax fun km hkm => (run_named hrun).roots km (hkms km hkm)

/-- Two keys in two pages. -/
theorem paging_misses_nothing_two_pages :
    ∃ s : Cluster Nat Nat, Paged 1 (ListRequest.pages { MaxKeys := 1 } (s.roots.drop 2)) ∧
      (ListRequest.pages { MaxKeys := 1 } (s.roots.drop 2)).map Page.items =
        [[['a']], [['b']]] := by
  have hrun : ((exec step anyStep (NewServer 0)
      [.Insert ['a'] (some 1), .inserts 0 10, .serve 0, .serve 0, .Insert ['b'] (some 2),
        .inserts 0 11, .serve 0, .serve 0, .Upsert ['b'] (some 3), .inserts 0 12, .serve 0,
        .serve 0, .serve 0]).map fun s : Cluster Nat Nat =>
          ListRequest.pages { MaxKeys := 1 } (s.roots.drop 2)) =
            some [⟨[['a'], ['b']], [], [['a']], true⟩,
              ⟨[['a'], ['b']], ['a'], [['b']], false⟩] := by decide
  obtain ⟨s, hs, hpages⟩ := Run.of_exec_map hrun
  refine ⟨s, ?_, by rw [hpages]; decide⟩
  have hmax : 1 ≤ ({ MaxKeys := 1 } : ListRequest).MaxKeys := le_refl 1
  refine (paging_misses_nothing_iff hs (fun km => List.mem_of_mem_drop) rfl hmax).mpr ?_
  rw [hpages]
  decide

/-- The marker is deleted between two pages. -/
theorem a_deleted_marker_ends_the_listing :
    ¬ ∀ (version : Int) (acts : List (Action Nat Nat)) (s : Cluster Nat Nat),
      Run step anyStep (NewServer version) acts s → ∀ (req : ListRequest) (kms : List (KeyMap Nat)),
        (∀ km ∈ kms, km ∈ s.roots) → req.Marker = [] → 1 ≤ req.MaxKeys →
          Paged req.MaxKeys (req.pages kms) := by
  intro h
  have hrun : ((exec step anyStep (NewServer 0)
      [.Insert ['a'] (some 1), .inserts 0 10, .serve 0, .serve 0, .Insert ['b'] (some 2),
        .inserts 0 11, .serve 0, .serve 0, .Delete ['a'], .serve 0, .serve 0,
        .serve 0]).map fun s : Cluster Nat Nat =>
          ListRequest.pages { MaxKeys := 1 } (s.roots.drop 2)) =
            some [⟨[['a'], ['b']], [], [['a']], true⟩, ⟨[['b']], ['a'], [], false⟩] := by decide
  obtain ⟨s, hs, hpages⟩ := Run.of_exec_map hrun
  have hpaged := h _ _ s hs { MaxKeys := 1 } (s.roots.drop 2) (fun km => List.mem_of_mem_drop) rfl
    (le_refl 1)
  rw [hpages] at hpaged
  have hlisted := hpaged.complete ⟨_, rfl, rfl⟩ ['b'] (by decide)
  revert hlisted
  decide

end Cluster

end memo.kvs
