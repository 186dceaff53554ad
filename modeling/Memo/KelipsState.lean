-- The state that a node is sent when it joins: its first format, and the second one, in which
-- the addresses of the files are sorted, are written without what they share with the one
-- before, and have their home nodes by number.
import Mathlib.Data.UInt
import Mathlib.Data.Vector.Basic
import Memo.Dictionaries
import Memo.Kelips

open dictionaries

namespace memo.overlay.kelips

/-! ## Addresses -/

/-- `Address::Value`. -/
abbrev Value : Type := List.Vector UInt8 32

/-- `Address`, with the flag that its constructor computes. -/
structure Address where
  value : Value
  mutable_block : Bool
deriving DecidableEq

def Address.null : Address := ⟨List.Vector.replicate 32 0, true⟩

/-- `Address::Address`, from the bytes alone. The last one has the flags. -/
def Address.of_value (value : Value) : Address := ⟨value, value.get (Fin.last 31) &&& 1 = 0⟩

/-- What an address is on the other side of a call: its bytes are sent. -/
def Address.serialized (a : Address) : Address := .of_value a.value

/-- How many bytes are the same. -/
def shared : List UInt8 → List UInt8 → Nat
  | x :: xs, y :: ys => if x = y then shared xs ys + 1 else 0
  | _, _ => 0

/-! ## The two formats -/

variable {E : Type}

/-- What is sent of a node. -/
structure Fetched (E : Type) where
  _self : Address
  _local_endpoints : List (TimedEndpoint E)
  contacts : List (List (Address × List (TimedEndpoint E)))
  files : List (Address × Address)

def to_endpoints [DecidableEq E] (l : List (TimedEndpoint E)) : Finset E := (l.map (·.1)).toFinset

/-- A map of addresses to endpoints, in some order. -/
abbrev ContactMap (E : Type) : Type := List (Address × Finset E)

/-- The entry that is there first is kept. -/
def insert_contact (m : ContactMap E) (c : Address × Finset E) : ContactMap E :=
  if m.any fun d => d.1.value = c.1.value then m else m ++ [c]

/-- The endpoints of an address; there are none when it is not in the map. -/
def endpoints_of (m : ContactMap E) (v : Value) : Finset E :=
  ((m.find? fun c => c.1.value = v).map (·.2)).getD ∅

abbrev SerState (E : Type) : Type := ContactMap E × List (Address × Address)

/-- The node, and its contacts. -/
def Fetched.locations [DecidableEq E] (s : Fetched E) : List (Address × Finset E) :=
  (s._self, to_endpoints s._local_endpoints) ::
    s.contacts.flatten.map fun c => (c.1, to_endpoints c.2)

/-- `kelips_fetch_state`. -/
def fetch_state [DecidableEq E] (s : Fetched E) : SerState E :=
  (s.locations.foldl insert_contact [], s.files ++ [(.null, s._self)])

/-- What the other side gets. -/
def SerState.serialized (s : SerState E) : SerState E :=
  (s.1.map fun c => (c.1.serialized, c.2), s.2.map fun f => (f.1.serialized, f.2.serialized))

abbrev SerState2 (E : Type) : Type := List (Address × Finset E) × List (List UInt8 × Int)

/-- The state so far, the numbers of its addresses, and the file before. -/
structure Encoded (E : Type) where
  first : List (Address × Finset E)
  second : List (List UInt8 × Int) := []
  index : List (Value × Int) := []
  prev : Address := .null

/-- A contact is numbered in an assertion, so it is not when there are none. -/
def encode_contact (ndebug : Bool) (s : Encoded E) (c : Address × Finset E) :
    Option (Encoded E) :=
  if ndebug then
    some { s with first := s.first ++ [c] }
  else if (s.index.lookup c.1.value).isSome then
    none
  else
    some { s with
      index := (c.1.value, (s.first.length : Int)) :: s.index
      first := s.first ++ [c] }

def encode_file (s : Encoded E) (f : Address × Address) : Encoded E :=
  let (faddr, fhome) := f
  let daddr := faddr.value.toList.drop (shared faddr.value.toList s.prev.value.toList)
  match s.index.lookup fhome.value with
  | some idx => { s with second := s.second ++ [(daddr, idx)], prev := faddr }
  | none =>
    let first := s.first ++ [(fhome, ∅)]
    let idx : Int := (first.length : Int) - 1
    { first, second := s.second ++ [(daddr, idx)], index := (fhome.value, idx) :: s.index,
      prev := faddr }

/-- The order of the addresses, that of `memcmp`. -/
def file_le (f g : Address × Address) : Prop := ¬g.1.value.toList < f.1.value.toList

instance : DecidableRel file_le := fun f g =>
  inferInstanceAs (Decidable ¬g.1.value.toList < f.1.value.toList)

/-- `kelips_fetch_state2`. -/
def fetch_state2 [DecidableEq E] (ndebug : Bool) (s : Fetched E) : Option (SerState2 E) := do
  let start : Encoded E :=
    { first := [(s._self, to_endpoints s._local_endpoints)], index := [(s._self.value, 0)] }
  let t ← (s.contacts.flatten.map fun c => (c.1, to_endpoints c.2)).foldlM
    (encode_contact ndebug) start
  let t := (s.files.insertionSort file_le).foldl encode_file t
  return (t.first, t.second)

def SerState2.serialized (s : SerState2 E) : SerState2 E :=
  (s.1.map fun c => (c.1.serialized, c.2), s.2)

/-- The last bytes of a copy of an address are written over. The flag is that of the copy. -/
def patch (prev : Address) (data : List UInt8) : Option Address :=
  if h : data.length ≤ 32 then
    some { prev with value := ⟨prev.value.toList.take (32 - data.length) ++ data, by
      rw [List.length_append, List.length_take, List.Vector.toList_length]
      omega⟩ }
  else
    none

/-- The files so far, and the address before. -/
def decode_file (first : List (Address × Finset E)) (s : List (Address × Address) × Address)
    (f : List UInt8 × Int) : Option (List (Address × Address) × Address) := do
  let next ← patch s.2 f.1
  let home ← at? first f.2
  return (s.1 ++ [(next, home.1)], next)

/-- `Node::get_serstate`, of an answer in the second format. -/
def get_serstate [DecidableEq E] (state : SerState2 E) : Option (SerState E) := do
  let contacts := (state.1.filter fun c => c.2 ≠ ∅).foldl insert_contact []
  let files ← state.2.foldlM (decode_file state.1) ([], .null)
  let self ← state.1.head?
  return (contacts, files.1 ++ [(.null, self.1)])

/-! ## Addresses that are read back -/

theorem shared_le (l l' : List UInt8) : shared l l' ≤ l.length := by
  induction l generalizing l' with
  | nil => exact Nat.le_refl 0
  | cons x l ih =>
    cases l' with
    | nil => exact Nat.zero_le _
    | cons y l' =>
      unfold shared
      split
      · exact Nat.succ_le_succ (ih l')
      · exact Nat.zero_le _

theorem take_shared (l l' : List UInt8) : l'.take (shared l l') = l.take (shared l l') := by
  induction l generalizing l' with
  | nil => rfl
  | cons x l ih =>
    cases l' with
    | nil => rfl
    | cons y l' =>
      unfold shared
      split
      · rename_i hxy
        rw [List.take_succ_cons, List.take_succ_cons, ih, hxy]
      · rfl

theorem patch_shared (a prev : Address) :
    patch prev (a.value.toList.drop (shared a.value.toList prev.value.toList)) =
      some ⟨a.value, prev.mutable_block⟩ := by
  have hlen : (a.value.toList.drop (shared a.value.toList prev.value.toList)).length =
      32 - shared a.value.toList prev.value.toList := by
    rw [List.length_drop, List.Vector.toList_length]
  have hle : shared a.value.toList prev.value.toList ≤ 32 := by
    have h := shared_le a.value.toList prev.value.toList
    rw [List.Vector.toList_length] at h
    exact h
  unfold patch
  rw [dif_pos (by omega)]
  refine congrArg (fun v : Value => some (Address.mk v prev.mutable_block)) (List.Vector.eq _ _ ?_)
  change prev.value.toList.take _ ++ _ = a.value.toList
  rw [hlen, Nat.sub_sub_self hle, take_shared, List.take_append_drop]

/-! ## The second format -/

/-- The number of an address is that of an entry of it. -/
def Names (v : Value) (c : Address × Finset E) : Prop := c.1.value = v

def sent (l : List (Address × Finset E)) : List (Address × Finset E) :=
  l.map fun c => (c.1.serialized, c.2)

theorem at?_sent {l : List (Address × Finset E)} {c : Address × Finset E} {i : Int}
    (h : at? l i = some c) : at? (sent l) i = some (c.1.serialized, c.2) := by
  unfold at? sent at *
  split at h
  · exact absurd h.symm (Option.some_ne_none c)
  · rename_i hi
    rw [if_neg hi, List.getElem?_map, h]
    rfl

theorem encode_contacts (ndebug : Bool) (l : List (Address × Finset E)) {s : Encoded E}
    (hindex : Indexes Names s.index s.first)
    (honce : ((s.first ++ l).map (·.1.value)).Nodup) :
    ∃ t, l.foldlM (encode_contact ndebug) s = some t ∧ t.first = s.first ++ l ∧
      Indexes Names t.index t.first ∧ t.second = s.second ∧ t.prev = s.prev := by
  induction l generalizing s with
  | nil => exact ⟨s, rfl, (List.append_nil _).symm, hindex, rfl, rfl⟩
  | cons c l ih =>
    have hone : ∃ t, encode_contact ndebug s c = some t ∧ t.first = s.first ++ [c] ∧
        Indexes Names t.index t.first ∧ t.second = s.second ∧ t.prev = s.prev := by
      unfold encode_contact
      split
      · exact ⟨_, rfl, rfl, hindex.grow, rfl, rfl⟩
      · rw [if_neg]
        · exact ⟨_, rfl, rfl, hindex.push rfl, rfl, rfl⟩
        · intro hknown
          obtain ⟨i, hi⟩ := Option.isSome_iff_exists.mp hknown
          obtain ⟨d, hd, hname⟩ := hindex _ i hi
          rw [List.map_append, List.nodup_append] at honce
          exact honce.2.2 d.1.value (List.mem_map_of_mem (at?_mem hd)) c.1.value
            (by rw [List.map_cons]; exact List.mem_cons_self) hname
    obtain ⟨t, ht, hfirst, hindex', hsecond, hprev⟩ := hone
    rw [List.append_cons, ← hfirst] at honce
    obtain ⟨u, hu, hfirst', hindex'', hsecond', hprev'⟩ := ih hindex' honce
    refine ⟨u, ?_, ?_, hindex'', hsecond'.trans hsecond, hprev'.trans hprev⟩
    · rw [List.foldlM_cons, ht]
      exact hu
    · rw [hfirst', hfirst, ← List.append_cons]

theorem encode_file_spec {s : Encoded E} (hindex : Indexes Names s.index s.first)
    (f : Address × Address) :
    let t := encode_file s f
    ∃ extra idx home, t.first = s.first ++ extra ∧ (∀ c ∈ extra, c.2 = ∅) ∧
      t.second = s.second ++
        [(f.1.value.toList.drop (shared f.1.value.toList s.prev.value.toList), idx)] ∧
      t.prev = f.1 ∧ Indexes Names t.index t.first ∧ at? t.first idx = some home ∧
      home.1.value = f.2.value := by
  intro t
  unfold t encode_file
  dsimp only
  cases hlookup : s.index.lookup f.2.value with
  | some idx =>
    obtain ⟨home, hhome, hname⟩ := hindex _ idx hlookup
    exact ⟨[], idx, home, (List.append_nil _).symm, by simp, rfl, rfl, hindex, hhome, hname⟩
  | none =>
    have hidx : ((s.first ++ [(f.2, ∅)]).length : Int) - 1 = s.first.length := by
      rw [List.length_append, List.length_singleton]
      omega
    dsimp only
    rw [hidx]
    refine ⟨[(f.2, ∅)], s.first.length, (f.2, ∅), rfl, by simp, rfl, rfl, hindex.push rfl,
      at?_length, rfl⟩

theorem decode_files (fs : List (Address × Address)) {s : Encoded E}
    (hindex : Indexes Names s.index s.first) {prev : Address} (hprev : prev.value = s.prev.value) :
    let t := fs.foldl encode_file s
    ∃ extra new, t.first = s.first ++ extra ∧ (∀ c ∈ extra, c.2 = ∅) ∧ t.second = s.second ++ new ∧
      ∀ done, ∃ last, new.foldlM (decode_file (sent t.first)) (done, prev) =
        some (done ++ fs.map (fun f => (⟨f.1.value, prev.mutable_block⟩, f.2.serialized)),
          last) := by
  intro t
  unfold t
  clear t
  induction fs generalizing s prev with
  | nil =>
    refine ⟨[], [], (List.append_nil _).symm, by simp, (List.append_nil _).symm, fun done => ?_⟩
    exact ⟨prev, by rw [List.map_nil, List.append_nil]; rfl⟩
  | cons f fs ih =>
    obtain ⟨extra, idx, home, hfirst, hempty, hsecond, hprev', hindex', hhome, hname⟩ :=
      encode_file_spec hindex f
    have hvalue : (⟨f.1.value, prev.mutable_block⟩ : Address).value =
        (encode_file s f).prev.value := by
      rw [hprev']
    obtain ⟨extra', new, hfirst', hempty', hsecond', hdecode⟩ := ih hindex' hvalue
    refine ⟨extra ++ extra',
      (f.1.value.toList.drop (shared f.1.value.toList s.prev.value.toList), idx) :: new,
      ?_, ?_, ?_, fun done => ?_⟩
    · rw [List.foldl_cons, hfirst', hfirst, List.append_assoc]
    · intro c hc
      rcases List.mem_append.mp hc with hc | hc
      · exact hempty c hc
      · exact hempty' c hc
    · rw [List.foldl_cons, hsecond', hsecond, List.append_assoc]
      rfl
    · obtain ⟨last, hlast⟩ := hdecode (done ++ [(⟨f.1.value, prev.mutable_block⟩, f.2.serialized)])
      refine ⟨last, ?_⟩
      have hfound : at? (sent (fs.foldl encode_file (encode_file s f)).first) idx =
          some (f.2.serialized, home.2) := by
        have hgrown : at? (sent ((encode_file s f).first ++ extra')) idx =
            some (home.1.serialized, home.2) := at?_sent (at?_append hhome)
        rw [hfirst', hgrown]
        unfold Address.serialized
        rw [hname]
      have hone : decode_file (sent (fs.foldl encode_file (encode_file s f)).first) (done, prev)
          (f.1.value.toList.drop (shared f.1.value.toList s.prev.value.toList), idx) =
          some (done ++ [(⟨f.1.value, prev.mutable_block⟩, f.2.serialized)],
            ⟨f.1.value, prev.mutable_block⟩) := by
        unfold decode_file
        rw [← hprev, patch_shared, hfound]
        rfl
      rw [List.foldl_cons, List.foldlM_cons, hone]
      change new.foldlM _ _ = _
      rw [hlast, List.map_cons, List.append_assoc]
      rfl

/-! ## Contacts -/

theorem endpoints_of_insert (l : List (Address × Finset E)) (v : Value) :
    endpoints_of (l.foldl insert_contact []) v =
      ((l.find? fun c => c.1.value = v).map (·.2)).getD ∅ := by
  have hall : ∀ m : ContactMap E, (l.foldl insert_contact m).find? (fun c => c.1.value = v) =
      (m.find? fun c => c.1.value = v).or (l.find? fun c => c.1.value = v) := by
    induction l with
    | nil => exact fun m => Option.or_none.symm
    | cons c l ih =>
      intro m
      rw [List.foldl_cons, ih]
      unfold insert_contact
      split
      · rename_i hknown
        obtain ⟨d, hd, hdc⟩ := List.any_eq_true.mp hknown
        rw [decide_eq_true_eq] at hdc
        by_cases hc : c.1.value = v
        · have hfound : (m.find? fun c => c.1.value = v).isSome := by
            rw [List.find?_isSome]
            exact ⟨d, hd, by rw [decide_eq_true_eq, hdc, hc]⟩
          obtain ⟨e, he⟩ := Option.isSome_iff_exists.mp hfound
          rw [he, Option.some_or, Option.some_or]
        · rw [List.find?_cons_of_neg (by simpa using hc)]
      · rw [List.find?_append, Option.or_assoc]
        by_cases hc : c.1.value = v
        · rw [List.find?_cons_of_pos (by simpa using hc)]
          rw [List.find?_cons_of_pos (by simpa using hc), Option.some_or]
        · rw [List.find?_cons_of_neg (by simpa using hc)]
          rw [List.find?_cons_of_neg (by simpa using hc), List.find?_nil, Option.none_or]
  unfold endpoints_of
  rw [hall]
  rfl

theorem find?_sent (l : List (Address × Finset E)) (v : Value) :
    ((sent l).find? fun c => c.1.value = v).map (·.2) =
      (l.find? fun c => c.1.value = v).map (·.2) := by
  unfold sent
  rw [List.find?_map, Option.map_map]
  rfl

variable [DecidableEq E]

theorem endpoints_of_kept {l extra : List (Address × Finset E)}
    (honce : (l.map (·.1.value)).Nodup) (hempty : ∀ c ∈ extra, c.2 = ∅) (v : Value) :
    endpoints_of (((sent (l ++ extra)).filter fun c => c.2 ≠ ∅).foldl insert_contact []) v =
      ((l.find? fun c => c.1.value = v).map (·.2)).getD ∅ := by
  have hfilter : (sent (l ++ extra)).filter (fun c => c.2 ≠ ∅) =
      sent (l.filter fun c => c.2 ≠ ∅) := by
    have hextra : extra.filter (fun c => c.2 ≠ ∅) = [] :=
      List.filter_eq_nil_iff.mpr fun c hc => by simp [hempty c hc]
    unfold sent
    rw [List.filter_map, List.filter_append]
    change ((l.filter fun c => c.2 ≠ ∅) ++ extra.filter fun c => c.2 ≠ ∅).map _ = _
    rw [hextra, List.append_nil]
  have hfind : (l.filter fun c => c.2 ≠ ∅).find? (fun c => c.1.value = v) =
      (l.find? fun c => c.1.value = v).filter fun c => c.2 ≠ ∅ :=
    find?_filter_of_nodup (fun c : Address × Finset E => c.1.value) honce _ v
  rw [endpoints_of_insert, hfilter, find?_sent, hfind]
  cases l.find? fun c => c.1.value = v with
  | none => rfl
  | some c =>
    rw [Option.filter_some]
    split
    · rfl
    · rename_i hc
      have hc' : c.2 = ∅ := by simpa using hc
      rw [Option.map_none, Option.map_some, hc']
      rfl

/-! ## Both formats -/

/-- The same contacts, but for those without endpoints, and the same files in some order, and then
the sender. -/
structure Agree (id : Address) (s s' : SerState E) : Prop where
  contacts : ∀ v, endpoints_of s.1 v = endpoints_of s'.1 v
  files : ∃ files files', s.2 = files ++ [(.null, id)] ∧ s'.2 = files' ++ [(.null, id)] ∧
    files'.Perm files

/-- The node is not one of its contacts, and no address is in two groups. -/
def Fetched.Distinct (s : Fetched E) : Prop := (s.locations.map (·.1.value)).Nodup

instance (s : Fetched E) : Decidable s.Distinct :=
  inferInstanceAs (Decidable (s.locations.map (·.1.value)).Nodup)

theorem second_format (ndebug : Bool) {s : Fetched E} (h : s.Distinct) :
    ∃ s2 t, fetch_state2 ndebug s = some s2 ∧ get_serstate (SerState2.serialized s2) = some t ∧
      (∀ v, endpoints_of t.1 v = ((s.locations.find? fun c => c.1.value = v).map (·.2)).getD ∅) ∧
      t.2 = (s.files.insertionSort file_le).map (fun f => (⟨f.1.value, true⟩, f.2.serialized)) ++
        [(.null, s._self.serialized)] := by
  let contacts := s.contacts.flatten.map fun c => (c.1, to_endpoints c.2)
  let start : Encoded E :=
    { first := [(s._self, to_endpoints s._local_endpoints)], index := [(s._self.value, 0)] }
  have hstart : Indexes Names start.index start.first := by
    have hnil : Indexes Names [] ([] : List (Address × Finset E)) := Indexes.nil
    exact hnil.push rfl
  obtain ⟨u, hu, hfirst, hindex, hsecond, hprev⟩ := encode_contacts ndebug contacts hstart h
  have hnull : Address.null.value = u.prev.value := by rw [hprev]
  obtain ⟨extra, new, hfirst', hempty, hsecond', hdecode⟩ :=
    decode_files (s.files.insertionSort file_le) hindex hnull
  obtain ⟨last, hlast⟩ := hdecode []
  rw [hsecond, List.nil_append] at hsecond'
  rw [hfirst] at hfirst'
  have hlocations : start.first ++ contacts = s.locations := rfl
  rw [hlocations] at hfirst'
  refine ⟨(s.locations ++ extra, new),
    (((sent (s.locations ++ extra)).filter fun c => c.2 ≠ ∅).foldl insert_contact [],
      (s.files.insertionSort file_le).map (fun f => (⟨f.1.value, true⟩, f.2.serialized)) ++
        [(.null, s._self.serialized)]), ?_, ?_, endpoints_of_kept h hempty, rfl⟩
  · unfold fetch_state2
    dsimp only
    rw [hu]
    change some (_, _) = _
    rw [hfirst', hsecond']
  · rw [hfirst'] at hlast
    unfold get_serstate SerState2.serialized
    dsimp only
    change (do
      let files ← new.foldlM (decode_file (sent (s.locations ++ extra))) ([], Address.null)
      let self ← (sent (s.locations ++ extra)).head?
      return (((sent (s.locations ++ extra)).filter fun c : Address × Finset E => c.2 ≠ ∅).foldl
        insert_contact [], files.1 ++ [(Address.null, self.1)])) = _
    rw [hlast]
    rfl

theorem first_format (s : Fetched E) :
    (∀ v, endpoints_of (SerState.serialized (fetch_state s)).1 v =
        ((s.locations.find? fun c => c.1.value = v).map (·.2)).getD ∅) ∧
      (SerState.serialized (fetch_state s)).2 =
        s.files.map (fun f => (f.1.serialized, f.2.serialized)) ++
          [(.null, s._self.serialized)] := by
  constructor
  · intro v
    rw [← endpoints_of_insert]
    exact congrArg (Option.getD · ∅) (find?_sent (s.locations.foldl insert_contact []) v)
  · have hnull : Address.null.serialized = Address.null := by decide +kernel
    change (s.files ++ [(Address.null, s._self)]).map _ = _
    rw [List.map_append, List.map_singleton, hnull]

theorem formats_agree_iff (ndebug : Bool) {s : Fetched E} (h : s.Distinct) :
    (∃ s2 t, fetch_state2 ndebug s = some s2 ∧ get_serstate (SerState2.serialized s2) = some t ∧
      Agree s._self.serialized (SerState.serialized (fetch_state s)) t) ↔
      ∀ f ∈ s.files, f.1.serialized.mutable_block = true := by
  obtain ⟨hcontacts, hfiles⟩ := first_format s
  obtain ⟨s2, t, hs2, ht, hcontacts2, hfiles2⟩ := second_format ndebug h
  constructor
  · rintro ⟨s2', t', hs2', ht', hagree⟩ f hf
    rw [hs2, Option.some.injEq] at hs2'
    subst hs2'
    rw [ht, Option.some.injEq] at ht'
    subst ht'
    obtain ⟨files, files', hfirst, hsecond, hperm⟩ := hagree.files
    have hleft := List.append_inj_left' (hfiles.symm.trans hfirst) rfl
    have hright := List.append_inj_left' (hfiles2.symm.trans hsecond) rfl
    have hin : (f.1.serialized, f.2.serialized) ∈ files' := by
      rw [hperm.mem_iff, ← hleft]
      exact List.mem_map_of_mem
        (f := fun f : Address × Address => (f.1.serialized, f.2.serialized)) hf
    rw [← hright] at hin
    obtain ⟨g, -, heq⟩ := List.mem_map.mp hin
    exact (congrArg (·.1.mutable_block) heq).symm
  · intro hmutable
    refine ⟨s2, t, hs2, ht, fun v => by rw [hcontacts, hcontacts2], _, _, hfiles, hfiles2, ?_⟩
    refine ((List.perm_insertionSort file_le s.files).map _).trans (List.Perm.of_eq ?_)
    refine List.map_congr_left fun f hf => ?_
    have hflag := hmutable f hf
    exact Prod.ext (congrArg (Address.mk f.1.value) hflag.symm) rfl

/-- Three files in two homes, one of which has no endpoints that are known. -/
def fetched (flags : UInt8) : Fetched Nat where
  _self := .of_value (List.Vector.replicate 32 4)
  _local_endpoints := [(1, 0)]
  contacts := [[(.of_value (List.Vector.replicate 32 6), [(2, 0)])], []]
  files :=
    [(.of_value (List.Vector.replicate 32 8), .of_value (List.Vector.replicate 32 10)),
      (.of_value ((List.Vector.replicate 32 0).set (Fin.last 31) flags),
        .of_value (List.Vector.replicate 32 4)),
      (.of_value (List.Vector.replicate 32 8), .of_value (List.Vector.replicate 32 6))]

theorem mutable_files_agree :
    ∃ s2 t, fetch_state2 false (fetched 2) = some s2 ∧
      get_serstate (SerState2.serialized s2) = some t ∧
      Agree (fetched 2)._self.serialized (SerState.serialized (fetch_state (fetched 2))) t :=
  (formats_agree_iff false (by decide +kernel)).mpr (by decide +kernel)

/-- An immutable block is said to be mutable. -/
theorem immutable_file_differs :
    ¬∃ s2 t, fetch_state2 false (fetched 1) = some s2 ∧
      get_serstate (SerState2.serialized s2) = some t ∧
      Agree (fetched 1)._self.serialized (SerState.serialized (fetch_state (fetched 1))) t := by
  rintro ⟨s2, t, hs2, ht, hagree⟩
  have hread : ((fetch_state2 false (fetched 1)).bind fun s2 =>
      (get_serstate (SerState2.serialized s2)).map fun t => t.2.map (·.1.mutable_block)) =
      some [true, true, true, true] := by
    decide +kernel
  rw [hs2, Option.bind_some, ht, Option.map_some, Option.some.injEq] at hread
  have hsent : ((SerState.serialized (fetch_state (fetched 1))).2.map (·.1.mutable_block)) =
      [true, false, true, true] := by
    decide +kernel
  obtain ⟨files, files', hfirst, hsecond, hperm⟩ := hagree.files
  rw [hfirst] at hsent
  rw [hsecond] at hread
  have hboth := ((hperm.append_right [(Address.null, (fetched 1)._self.serialized)]).map
    (·.1.mutable_block)).mem_iff (a := false)
  rw [hsent, hread] at hboth
  exact absurd (hboth.mpr (by decide)) (by decide)

end memo.overlay.kelips
