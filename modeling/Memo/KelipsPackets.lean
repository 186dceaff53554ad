-- The packets of `kelips` that are compressed: in a gossip, the home nodes of the files are
-- numbered; in the requests for several files and their replies, the locations are, and a list
-- of locations that was there before is referred to by its number.
import Mathlib.Data.List.Sort
import Memo.Dictionaries
import Memo.Kelips

open dictionaries

namespace memo.overlay.kelips

/-- `boost::posix_time::ptime`, in microseconds since the epoch. -/
abbrev Ptime : Type := Int

/-- `elle::to_boost`, of nanoseconds since the epoch. -/
def to_boost (d : Time) : Ptime :=
  let sec := d.tdiv 1000000000
  let nsec := d.tmod 1000000000
  sec * 1000000 + (nsec + 500).tdiv 1000

/-- `elle::from_boost`. -/
def from_boost (t : Ptime) : Time :=
  t.tdiv 1000000 * 1000000000 + t.tmod 1000000 * (1000000000 / 1000000)

/-- A time that was serialized. -/
def rounded (t : Time) : Time := from_boost (to_boost t)

theorem from_boost_eq (us : Int) : from_boost us = us * 1000 := by
  have hus := Int.mul_tdiv_add_tmod us 1000000
  change us.tdiv 1000000 * 1000000000 + us.tmod 1000000 * (1000000000 / 1000000) = us * 1000
  omega

theorem to_boost_eq {d : Int} (h : 0 ≤ d) :
    to_boost d = d / 1000000000 * 1000000 + (d % 1000000000 + 500) / 1000 := by
  unfold to_boost
  dsimp only
  rw [Int.tdiv_eq_ediv_of_nonneg h, Int.tmod_eq_emod_of_nonneg h,
    Int.tdiv_eq_ediv_of_nonneg (by omega)]

theorem rounded_near {t : Int} (h : 0 ≤ t) :
    (rounded t - t).natAbs ≤ 500 ∧ (1000 ∣ t → rounded t = t) := by
  unfold rounded
  rw [to_boost_eq h, from_boost_eq]
  constructor
  · change ((t / 1000000000 * 1000000 + (t % 1000000000 + 500) / 1000) * 1000 - t : Int).natAbs ≤
      500
    omega
  · rintro ⟨us, rfl⟩
    change (1000 * us / 1000000000 * 1000000 + (1000 * us % 1000000000 + 500) / 1000) * 1000 =
      1000 * us
    omega

structure NodeLocation (A E : Type) where
  id : A
  endpoints : Finset E

/-- `NodeLocations`. -/
abbrev NodeLocations (A E : Type) : Type := List (NodeLocation A E)

variable {A E : Type} [DecidableEq A]

/-! ## Gossip -/

/-- The files as they are written, without the compression context and with it. -/
inductive SerializedFiles (A : Type) where
  | files (l : List (A × Ptime × A))
  | compressed (file_addresses : List A) (file_files : List (A × Ptime × Int))

structure SerializedGossip (A E : Type) where
  sender : A
  observer : Bool
  contacts : List (A × List (E × Ptime))
  files : SerializedFiles A

/-- The addresses so far, their index, and the files. -/
structure CompressedFiles (A : Type) where
  addresses : List A := []
  index : List (A × Int) := []
  cfiles : List (A × Ptime × Int) := []

/-- A file of a gossip that is written. -/
def compress_file (s : CompressedFiles A) (f : A × Time × A) : CompressedFiles A :=
  let addr := f.2.2
  match s.index.lookup addr with
  | some idx => { s with cfiles := s.cfiles ++ [(f.1, to_boost f.2.1, idx)] }
  | none =>
    let addresses := s.addresses ++ [addr]
    let idx : Int := (addresses.length : Int) - 1
    { addresses, index := (addr, idx) :: s.index,
      cfiles := s.cfiles ++ [(f.1, to_boost f.2.1, idx)] }

def files_out (compress : Bool) (files : List (A × Time × A)) : SerializedFiles A :=
  if compress then
    let s := files.foldl compress_file {}
    .compressed s.addresses s.cfiles
  else
    .files (files.map fun f => (f.1, to_boost f.2.1, f.2.2))

def files_in (compress : Bool) : SerializedFiles A → Option (List (A × Time × A))
  | .files l =>
    if compress then none else some (l.map fun f => (f.1, from_boost f.2.1, f.2.2))
  | .compressed file_addresses file_files =>
    if compress then
      file_files.mapM fun c => (at? file_addresses c.2.2).map fun a => (c.1, from_boost c.2.1, a)
    else
      none

/-- `Gossip::serialize`, out. -/
def Gossip.serialize_out (compress : Bool) (p : Gossip A E) : SerializedGossip A E where
  sender := p.sender
  observer := p.observer
  contacts := p.contacts.map fun c => (c.1, c.2.map fun te => (te.1, to_boost te.2))
  files := files_out compress p.files

/-- `Gossip::serialize`, in. -/
def Gossip.serialize_in (compress : Bool) (s : SerializedGossip A E) : Option (Gossip A E) := do
  let contacts := s.contacts.map fun c => (c.1, c.2.map fun te => (te.1, from_boost te.2))
  let files ← files_in compress s.files
  return { sender := s.sender, observer := s.observer, contacts, files }

/-! ### What is read back -/

/-- A file whose home node is the one at its number. -/
def ReadsFile (addresses : List A) (f : A × Time × A) (c : A × Ptime × Int) : Prop :=
  c.1 = f.1 ∧ c.2.1 = to_boost f.2.1 ∧ at? addresses c.2.2 = some f.2.2

theorem compress_file_reads {s : CompressedFiles A} {fs : List (A × Time × A)}
    (hindex : Indexes (fun a v => v = a) s.index s.addresses)
    (hfiles : List.Forall₂ (ReadsFile s.addresses) fs s.cfiles) (f : A × Time × A) :
    Indexes (fun a v => v = a) (compress_file s f).index (compress_file s f).addresses ∧
      List.Forall₂ (ReadsFile (compress_file s f).addresses) (fs ++ [f])
        (compress_file s f).cfiles := by
  unfold compress_file
  dsimp only
  cases hlookup : s.index.lookup f.2.2 with
  | some idx =>
    obtain ⟨v, hv, rfl⟩ := hindex _ _ hlookup
    exact ⟨hindex, List.rel_append hfiles (.cons ⟨rfl, rfl, hv⟩ .nil)⟩
  | none =>
    have hidx : ((s.addresses ++ [f.2.2]).length : Int) - 1 = s.addresses.length := by
      rw [List.length_append, List.length_singleton]
      omega
    dsimp only
    rw [hidx]
    refine ⟨hindex.push rfl, List.rel_append (hfiles.imp fun f c h => ?_)
      (.cons ⟨rfl, rfl, at?_length⟩ .nil)⟩
    exact ⟨h.1, h.2.1, at?_append h.2.2⟩

theorem compress_files_read (fs : List (A × Time × A)) :
    List.Forall₂ (ReadsFile (fs.foldl compress_file {}).addresses) fs
      (fs.foldl compress_file {}).cfiles := by
  suffices h : ∀ (rest done : List (A × Time × A)) (s : CompressedFiles A),
      Indexes (fun a v => v = a) s.index s.addresses →
        List.Forall₂ (ReadsFile s.addresses) done s.cfiles →
          List.Forall₂ (ReadsFile (rest.foldl compress_file s).addresses) (done ++ rest)
            (rest.foldl compress_file s).cfiles from
    h fs [] {} Indexes.nil .nil
  intro rest
  induction rest with
  | nil =>
    intro done s _ hfiles
    rw [List.append_nil]
    exact hfiles
  | cons f rest ih =>
    intro done s hindex hfiles
    obtain ⟨hindex', hfiles'⟩ := compress_file_reads hindex hfiles f
    have hrest := ih _ _ hindex' hfiles'
    rw [List.append_assoc] at hrest
    exact hrest

/-- The containers of files are not ordered. -/
inductive Reordered : SerializedFiles A → SerializedFiles A → Prop
  | files {l l' : List (A × Ptime × A)} (h : l'.Perm l) : Reordered (.files l) (.files l')
  | compressed {addresses : List A} {l l' : List (A × Ptime × Int)} (h : l'.Perm l) :
      Reordered (.compressed addresses l) (.compressed addresses l')

theorem files_come_back {compress : Bool} {files : List (A × Time × A)} {s : SerializedFiles A}
    (h : Reordered (files_out compress files) s) :
    ∃ files', files_in compress s = some files' ∧
      files'.Perm (files.map fun f => (f.1, rounded f.2.1, f.2.2)) := by
  cases compress with
  | false =>
    cases h with
    | files hperm =>
      refine ⟨_, rfl, (hperm.map _).trans (List.Perm.of_eq ?_)⟩
      rw [List.map_map]
      rfl
  | true =>
    cases h with
    | compressed hperm =>
      have hfound : (files.foldl compress_file {}).cfiles.mapM (fun c =>
          (at? (files.foldl compress_file {}).addresses c.2.2).map fun a =>
            (c.1, from_boost c.2.1, a)) =
          some (files.map fun f => (f.1, rounded f.2.1, f.2.2)) := by
        rw [mapM_eq_some, List.forall₂_map_right_iff]
        refine (compress_files_read files).flip.imp fun c f h => ?_
        rw [h.1, h.2.1, h.2.2, Option.map_some]
        rfl
      exact mapM_perm hperm hfound

theorem gossip_comes_back {compress : Bool} {p : Gossip A E} {files : SerializedFiles A}
    (h : Reordered (p.serialize_out compress).files files) :
    ∃ files', Gossip.serialize_in compress { p.serialize_out compress with files } = some
        ⟨p.sender, p.observer,
          p.contacts.map fun c => (c.1, c.2.map fun te => (te.1, rounded te.2)), files'⟩ ∧
      files'.Perm (p.files.map fun f => (f.1, rounded f.2.1, f.2.2)) := by
  have hread : (p.serialize_out compress).contacts.map
        (fun c => (c.1, c.2.map fun te => (te.1, from_boost te.2))) =
      p.contacts.map fun c => (c.1, c.2.map fun te => (te.1, rounded te.2)) := by
    unfold Gossip.serialize_out
    dsimp only
    rw [List.map_map]
    exact List.map_congr_left fun c _ => Prod.ext rfl List.map_map
  obtain ⟨files', hback, hperm⟩ := files_come_back h
  refine ⟨files', ?_, hperm⟩
  unfold Gossip.serialize_in
  rw [hread, hback]
  rfl

/-! ## Results -/

inductive SerializedResults (A E : Type) where
  | result (results : List (NodeLocations A E))
  | compressed (result_endpoints : NodeLocations A E) (result_indexes : List (List Int))

/-- The locations so far, and their index. -/
structure Locations (A E : Type) where
  locs : NodeLocations A E := []
  loc_indexes : List (A × Int) := []

def add_location (s : Locations A E) (loc : NodeLocation A E) : Locations A E :=
  if (s.loc_indexes.lookup loc.id).isSome then
    s
  else
    let locs := s.locs ++ [loc]
    { locs, loc_indexes := (loc.id, (locs.length : Int) - 1) :: s.loc_indexes }

/-- The lists that are written so far, and the index of those that are no references. -/
structure Indexed where
  res_indexes : List (List Int × Int) := []
  output : List (List Int) := []

def index_result (loc_indexes : List (A × Int)) (s : Indexed) (r : NodeLocations A E) :
    Option Indexed := do
  let o ← r.mapM fun loc => loc_indexes.lookup loc.id
  let o := o.insertionSort (· ≤ ·)
  match s.res_indexes.lookup o with
  | some i => return { s with output := s.output ++ [[-1 * i - 1]] }
  | none =>
    let output := s.output ++ [o]
    return { res_indexes := (o, (output.length : Int) - 1) :: s.res_indexes, output }

/-- `result_out`. -/
def result_out (results : List (NodeLocations A E)) :
    Option (NodeLocations A E × List (List Int)) := do
  let s : Locations A E := results.flatten.foldl add_location {}
  let t ← results.foldlM (index_result s.loc_indexes) {}
  return (s.locs, t.output)

/-- One of the lists that are read. -/
def read_result (locs : NodeLocations A E) (results : List (NodeLocations A E)) (o : List Int) :
    Option (List (NodeLocations A E)) := do
  match o with
  | [i] =>
    if i < 0 then
      return results ++ [← at? results ((i + 1) * (-1))]
    else
      return results ++ [← o.mapM (at? locs)]
  | _ => return results ++ [← o.mapM (at? locs)]

/-- `result_in`. -/
def result_in (locs : NodeLocations A E) (input : List (List Int)) :
    Option (List (NodeLocations A E)) :=
  input.foldlM (read_result locs) []

def results_out (compress : Bool) (results : List (NodeLocations A E)) :
    Option (SerializedResults A E) :=
  if compress then
    (result_out results).map fun (locs, output) => .compressed locs output
  else
    some (.result results)

def results_in (compress : Bool) : SerializedResults A E → Option (List (NodeLocations A E))
  | .result results => if compress then none else some results
  | .compressed locs input => if compress then result_in locs input else none

/-! ## Requests and replies -/

/-- `MultiGetFileRequest`, with its results as they are or as they are written. -/
structure MultiGetFileRequest (A E R : Type) where
  sender : A
  observer : Bool
  request_id : Int
  originAddress : A
  originEndpoints : List E
  fileAddresses : List A
  ttl : Int
  count : Int
  results : R

def MultiGetFileRequest.serialize_out (compress : Bool)
    (p : MultiGetFileRequest A E (List (NodeLocations A E))) :
    Option (MultiGetFileRequest A E (SerializedResults A E)) := do
  let results ← results_out compress p.results
  return ⟨p.sender, p.observer, p.request_id, p.originAddress, p.originEndpoints,
    p.fileAddresses, p.ttl, p.count, results⟩

def MultiGetFileRequest.serialize_in (compress : Bool)
    (s : MultiGetFileRequest A E (SerializedResults A E)) :
    Option (MultiGetFileRequest A E (List (NodeLocations A E))) := do
  let results ← results_in compress s.results
  return ⟨s.sender, s.observer, s.request_id, s.originAddress, s.originEndpoints,
    s.fileAddresses, s.ttl, s.count, results⟩

/-- `MultiGetFileReply`. -/
structure MultiGetFileReply (A R : Type) where
  sender : A
  observer : Bool
  request_id : Int
  origin : A
  fileAddresses : List A
  results : R
  ttl : Int

def MultiGetFileReply.serialize_out (compress : Bool)
    (p : MultiGetFileReply A (List (NodeLocations A E))) :
    Option (MultiGetFileReply A (SerializedResults A E)) := do
  let results ← results_out compress p.results
  return ⟨p.sender, p.observer, p.request_id, p.origin, p.fileAddresses, results, p.ttl⟩

def MultiGetFileReply.serialize_in (compress : Bool)
    (s : MultiGetFileReply A (SerializedResults A E)) :
    Option (MultiGetFileReply A (List (NodeLocations A E))) := do
  let results ← results_in compress s.results
  return ⟨s.sender, s.observer, s.request_id, s.origin, s.fileAddresses, results, s.ttl⟩

/-! ### What is read back -/

/-- A node has one set of endpoints. -/
def Single (results : List (NodeLocations A E)) : Prop :=
  ∀ loc ∈ results.flatten, ∀ loc' ∈ results.flatten, loc.id = loc'.id → loc = loc'

/-- What the index says of an address is a location of that node, one of `all`. -/
def Located (all : NodeLocations A E) (id : A) (loc : NodeLocation A E) : Prop :=
  loc.id = id ∧ loc ∈ all

theorem add_location_locates {s : Locations A E} {all : NodeLocations A E}
    (h : Indexes (Located all) s.loc_indexes s.locs) {loc : NodeLocation A E} (hloc : loc ∈ all) :
    Indexes (Located all) (add_location s loc).loc_indexes (add_location s loc).locs ∧
      ((add_location s loc).loc_indexes.lookup loc.id).isSome ∧
      ∀ id, (s.loc_indexes.lookup id).isSome →
        ((add_location s loc).loc_indexes.lookup id).isSome := by
  unfold add_location
  split
  · rename_i hknown
    exact ⟨h, hknown, fun _ => id⟩
  · have hidx : ((s.locs ++ [loc]).length : Int) - 1 = s.locs.length := by
      rw [List.length_append, List.length_singleton]
      omega
    dsimp only
    rw [hidx]
    refine ⟨h.push ⟨rfl, hloc⟩, ?_, fun _ => lookup_push⟩
    rw [lookup_push_self]
    rfl

theorem locations_locate (all : NodeLocations A E) :
    let s : Locations A E := all.foldl add_location {}
    Indexes (Located all) s.loc_indexes s.locs ∧
      ∀ loc ∈ all, (s.loc_indexes.lookup loc.id).isSome := by
  suffices h : ∀ (rest : NodeLocations A E) (s : Locations A E), (∀ loc ∈ rest, loc ∈ all) →
      Indexes (Located all) s.loc_indexes s.locs →
        Indexes (Located all) (rest.foldl add_location s).loc_indexes
            (rest.foldl add_location s).locs ∧
          (∀ loc ∈ rest, ((rest.foldl add_location s).loc_indexes.lookup loc.id).isSome) ∧
          ∀ id, (s.loc_indexes.lookup id).isSome →
            ((rest.foldl add_location s).loc_indexes.lookup id).isSome by
    obtain ⟨hindex, hall, -⟩ := h all {} (fun _ h => h) Indexes.nil
    exact ⟨hindex, hall⟩
  intro rest
  induction rest with
  | nil => exact fun s _ h => ⟨h, fun _ h => absurd h List.not_mem_nil, fun _ h => h⟩
  | cons loc rest ih =>
    intro s hrest h
    obtain ⟨hindex, hknown, hkept⟩ := add_location_locates h (hrest loc List.mem_cons_self)
    obtain ⟨hindex', hall, hkept'⟩ :=
      ih _ (fun l hl => hrest l (List.mem_cons_of_mem _ hl)) hindex
    refine ⟨hindex', fun l hl => ?_, fun id hid => hkept' id (hkept id hid)⟩
    rcases List.mem_cons.mp hl with rfl | hl
    · exact hkept' _ hknown
    · exact hall l hl

variable {results : List (NodeLocations A E)} {r : NodeLocations A E}

theorem numbers_of (hsingle : Single results) (hr : r ∈ results) :
    let s : Locations A E := results.flatten.foldl add_location {}
    ∃ o, r.mapM (fun loc => s.loc_indexes.lookup loc.id) = some o ∧
      o.mapM (at? s.locs) = some r := by
  intro s
  obtain ⟨hindex, hall⟩ := locations_locate results.flatten
  have hone : ∀ loc ∈ r, ∃ i, s.loc_indexes.lookup loc.id = some i ∧ at? s.locs i = some loc := by
    intro loc hloc
    have hin : loc ∈ results.flatten := List.mem_flatten.mpr ⟨r, hr, hloc⟩
    obtain ⟨i, hi⟩ := Option.isSome_iff_exists.mp (hall loc hin)
    obtain ⟨v, hv, hid, hmem⟩ := hindex loc.id i hi
    exact ⟨i, hi, by rw [hv, hsingle v hmem loc hin hid]⟩
  clear hr
  induction r with
  | nil => exact ⟨[], rfl, rfl⟩
  | cons loc r ih =>
    obtain ⟨i, hi, hv⟩ := hone loc List.mem_cons_self
    obtain ⟨o, ho, hback⟩ := ih fun l hl => hone l (List.mem_cons_of_mem _ hl)
    refine ⟨i :: o, ?_, ?_⟩
    · rw [List.mapM_cons, hi, ho]
      rfl
    · rw [List.mapM_cons, hv, hback]
      rfl

omit [DecidableEq A] in
theorem read_result_plain {locs : NodeLocations A E} {o : List Int}
    (h : o.mapM (at? locs) = some r) :
    read_result locs results o = some (results ++ [r]) := by
  have hplain : (do return results ++ [← o.mapM (at? locs)]) = some (results ++ [r]) := by
    rw [h]
    rfl
  unfold read_result
  split
  · rename_i i
    split
    · rename_i hi
      obtain ⟨v, -, hv, -⟩ := List.forall₂_cons_left_iff.mp (mapM_eq_some.mp h)
      exact absurd (at?_nonneg hv) (by omega)
    · exact hplain
  · exact hplain

omit [DecidableEq A] in
theorem read_result_back {locs : NodeLocations A E} {i : Int} (h : at? results i = some r) :
    read_result locs results [-1 * i - 1] = some (results ++ [r]) := by
  have hi := at?_nonneg h
  have hback : (-1 * i - 1 + 1) * (-1) = i := by omega
  unfold read_result
  dsimp only
  rw [if_pos (by omega), hback, h]
  rfl

/-- The lists that are written are read as those that were, each in some order. -/
structure ReadsBack (locs : NodeLocations A E) (done : List (NodeLocations A E)) (t : Indexed)
    (decoded : List (NodeLocations A E)) : Prop where
  reads : result_in locs t.output = some decoded
  same : List.Forall₂ List.Perm decoded done
  length : decoded.length = t.output.length
  index : Indexes (fun o r => o.mapM (at? locs) = some r) t.res_indexes decoded

theorem ReadsBack.index_result {done : List (NodeLocations A E)} {t : Indexed}
    {decoded : List (NodeLocations A E)} (hsingle : Single results) (hr : r ∈ results) :
    let s : Locations A E := results.flatten.foldl add_location {}
    ReadsBack s.locs done t decoded →
      ∃ t' decoded', kelips.index_result s.loc_indexes t r = some t' ∧
        ReadsBack s.locs (done ++ [r]) t' decoded' := by
  intro s h
  obtain ⟨o, ho, hback⟩ := numbers_of hsingle hr
  obtain ⟨r', hr', hperm⟩ := mapM_perm (List.perm_insertionSort (· ≤ ·) o) hback
  have hlength : ∀ o' : List Int, (decoded ++ [r']).length = (t.output ++ [o']).length := by
    intro o'
    rw [List.length_append, List.length_append, h.length]
    rfl
  have hsame := List.rel_append h.same (.cons hperm .nil)
  have hreads : ∀ o', read_result s.locs decoded o' = some (decoded ++ [r']) →
      result_in s.locs (t.output ++ [o']) = some (decoded ++ [r']) := by
    intro o' ho'
    have hdone := h.reads
    unfold result_in at hdone ⊢
    rw [List.foldlM_append, hdone]
    change [o'].foldlM (read_result s.locs) decoded = _
    rw [List.foldlM_cons, ho']
    rfl
  unfold kelips.index_result
  rw [ho]
  cases hlookup : t.res_indexes.lookup (o.insertionSort (· ≤ ·)) with
  | some i =>
    obtain ⟨v, hv, hfound⟩ := h.index _ _ hlookup
    have hvr : v = r' := Option.some.inj (hfound.symm.trans hr')
    subst hvr
    refine ⟨{ t with output := t.output ++ [[-1 * i - 1]] }, decoded ++ [v], ?_,
      hreads _ (read_result_back hv), hsame, hlength _, h.index.grow⟩
    simp only [bind, Option.bind, hlookup]
    rfl
  | none =>
    have hidx : ((t.output ++ [o.insertionSort (· ≤ ·)]).length : Int) - 1 = decoded.length := by
      rw [List.length_append, List.length_singleton, h.length]
      omega
    have hindex := h.index.push hr'
    rw [← hidx] at hindex
    refine ⟨⟨_, _⟩, decoded ++ [r'], ?_, hreads _ (read_result_plain hr'), hsame, hlength _, hindex⟩
    simp only [bind, Option.bind, hlookup]
    rfl

theorem result_comes_back (hsingle : Single results) :
    ∃ locs output results', result_out results = some (locs, output) ∧
      result_in locs output = some results' ∧ List.Forall₂ List.Perm results' results := by
  have hall : ∀ (rest done : List (NodeLocations A E)) (t : Indexed)
      (decoded : List (NodeLocations A E)), (∀ r ∈ rest, r ∈ results) →
      let s : Locations A E := results.flatten.foldl add_location {}
      ReadsBack s.locs done t decoded →
        ∃ t' decoded', rest.foldlM (index_result s.loc_indexes) t = some t' ∧
          ReadsBack s.locs (done ++ rest) t' decoded' := by
    intro rest
    induction rest with
    | nil =>
      intro done t decoded _ s h
      exact ⟨t, decoded, rfl, by rw [List.append_nil]; exact h⟩
    | cons r rest ih =>
      intro done t decoded hin s h
      obtain ⟨t', decoded', ht, h'⟩ := ReadsBack.index_result hsingle (hin r List.mem_cons_self) h
      obtain ⟨t'', decoded'', ht', h''⟩ :=
        ih _ t' decoded' (fun l hl => hin l (List.mem_cons_of_mem _ hl)) h'
      rw [List.append_assoc] at h''
      refine ⟨t'', decoded'', ?_, h''⟩
      rw [List.foldlM_cons, ht]
      exact ht'
  obtain ⟨t, decoded, ht, h⟩ := hall results [] {} [] (fun _ h => h)
    ⟨rfl, .nil, rfl, Indexes.nil⟩
  refine ⟨_, t.output, decoded, ?_, h.reads, h.same⟩
  unfold result_out
  dsimp only
  rw [ht]
  rfl

theorem results_come_back (hsingle : Single results) (compress : Bool) :
    ∃ s results', results_out compress results = some s ∧
      results_in compress s = some results' ∧ List.Forall₂ List.Perm results' results := by
  cases compress with
  | false =>
    exact ⟨_, results, rfl, rfl, List.forall₂_same.mpr fun _ _ => List.Perm.refl _⟩
  | true =>
    obtain ⟨locs, output, results', hout, hin, hsame⟩ := result_comes_back hsingle
    refine ⟨.compressed locs output, results', ?_, hin, hsame⟩
    unfold results_out
    rw [if_pos rfl, hout]
    rfl

/-- What is decoded in a context is what was encoded in it, but for the order of the files and in
a list of locations, and but for times between two microseconds. -/
theorem packets_come_back (compress : Bool) :
    (∀ (p : Gossip A E) (files : SerializedFiles A),
      Reordered (p.serialize_out compress).files files →
        ∃ files', Gossip.serialize_in compress { p.serialize_out compress with files } = some
            ⟨p.sender, p.observer,
              p.contacts.map fun c => (c.1, c.2.map fun te => (te.1, rounded te.2)), files'⟩ ∧
          files'.Perm (p.files.map fun f => (f.1, rounded f.2.1, f.2.2))) ∧
    (∀ p : MultiGetFileRequest A E (List (NodeLocations A E)), Single p.results →
      ∃ s results, p.serialize_out compress = some s ∧
        MultiGetFileRequest.serialize_in compress s = some { p with results } ∧
        List.Forall₂ List.Perm results p.results) ∧
    (∀ p : MultiGetFileReply A (List (NodeLocations A E)), Single p.results →
      ∃ s results, p.serialize_out compress = some s ∧
        MultiGetFileReply.serialize_in compress s = some { p with results } ∧
        List.Forall₂ List.Perm results p.results) ∧
    ∀ t : Int, 0 ≤ t → (rounded t - t).natAbs ≤ 500 ∧ (1000 ∣ t → rounded t = t) := by
  refine ⟨fun p files h => gossip_comes_back h, fun p hsingle => ?_, fun p hsingle => ?_,
    fun t => rounded_near⟩
  · obtain ⟨s, results, hout, hin, hsame⟩ := results_come_back hsingle compress
    refine ⟨{ p with results := s }, results, ?_, ?_, hsame⟩
    · unfold MultiGetFileRequest.serialize_out
      rw [hout]
      rfl
    · unfold MultiGetFileRequest.serialize_in
      dsimp only
      rw [hin]
      rfl
  · obtain ⟨s, results, hout, hin, hsame⟩ := results_come_back hsingle compress
    refine ⟨{ p with results := s }, results, ?_, ?_, hsame⟩
    · unfold MultiGetFileReply.serialize_out
      rw [hout]
      rfl
    · unfold MultiGetFileReply.serialize_in
      dsimp only
      rw [hin]
      rfl

variable [DecidableEq E]

/-- A request whose lists come again, one of them empty. -/
def repeated : MultiGetFileRequest Nat Nat (List (NodeLocations Nat Nat)) where
  sender := 1
  observer := false
  request_id := 1
  originAddress := 1
  originEndpoints := [10]
  fileAddresses := [5, 6, 7, 8, 9]
  ttl := 1
  count := 2
  results := [[⟨2, {20}⟩], [], [⟨2, {20}⟩], [], [⟨3, {30}⟩, ⟨2, {20}⟩]]

example : (result_out repeated.results).map (·.2) = some [[0], [], [-1], [-2], [0, 1]] := by
  decide +kernel

theorem repeated_comes_back : ∃ s results, repeated.serialize_out true = some s ∧
    MultiGetFileRequest.serialize_in true s = some { repeated with results } ∧
    List.Forall₂ List.Perm results repeated.results := by
  refine (packets_come_back true).2.1 repeated fun loc hloc loc' hloc' hid => ?_
  simp only [repeated, List.flatten_cons, List.flatten_nil, List.append_nil, List.cons_append,
    List.nil_append, List.mem_cons, List.not_mem_nil, or_false] at hloc hloc'
  rcases hloc with rfl | rfl | rfl | rfl <;> rcases hloc' with rfl | rfl | rfl | rfl <;>
    simp_all

/-- A file that was seen a nanosecond after the epoch. -/
theorem nanosecond_is_lost : ¬∃ q,
    Gossip.serialize_in true
      ((⟨1, false, [], [(5, 1, 2)]⟩ : Gossip Nat Nat).serialize_out true) = some q ∧
      q.files.Perm [(5, 1, 2)] := by
  rintro ⟨q, hq, hperm⟩
  have hread : (Gossip.serialize_in true
      ((⟨1, false, [], [(5, 1, 2)]⟩ : Gossip Nat Nat).serialize_out true)).map (·.files) =
      some [(5, 0, 2)] := by
    decide +kernel
  rw [hq, Option.map_some, Option.some.injEq] at hread
  rw [hread] at hperm
  exact absurd (hperm.mem_iff.mp List.mem_cons_self) (by decide)

end memo.overlay.kelips
