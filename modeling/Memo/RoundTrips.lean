-- A value in a field, in the two formats. Without an option taken out of a map and
-- without a size over the integers, a value is read back from its bytes, and from
-- its document when it can be printed and has no option of a null.
import Memo.JsonReader

open codec elle.json maps ops

namespace elle.serialization

/-! ## In a document -/

namespace json

/-- The strings and the keys of a value are UTF-8. -/
def Utf8 : (t : Ty) → t.Value → Prop
  | .string, s => utf8 s = true
  | .vector t, (l : List t.Value) => ∀ v ∈ l, Utf8 t v
  | .pair t u, p => Utf8 t p.1 ∧ Utf8 u p.2
  | .dictionary t, m => ∀ e ∈ m.entries, utf8 e.1 = true ∧ Utf8 t e.2
  | .assoc k t, m => ∀ e ∈ m.entries, Utf8 k e.1 ∧ Utf8 t e.2
  | .option t, some v => Utf8 t v
  | _, _ => True

/-- A field that is written: all are but an option without a value. -/
def written : (t : Ty) → t.Value → Bool
  | .option _, none => false
  | _, _ => true

/-- A field that can be printed. -/
def Printable (name : Bytes) (t : Ty) (v : t.Value) : Prop :=
  (written t v = true → utf8 name = true) ∧ Utf8 t v

/-- Whether the nodes of a field are under its name. Those of an option are not. -/
def named : Ty → Bool
  | .option _ => false
  | _ => true

theorem dump_of_object (l : List (Bytes × Json)) : dump (object l) = dump_members l := by
  cases l <;> simp [object, dump, dump_members]

theorem dump_doc (t : Ty) (v : t.Value) : dump (doc t v) = true ↔ Utf8 t v := by
  induction t with
  | bool => exact iff_of_true rfl trivial
  | integer k => exact iff_of_true rfl trivial
  | string => exact Iff.rfl
  | buffer => exact iff_of_true (utf8_write v) trivial
  | vector t ih => exact (dump_elements_map (doc t) v).trans (forall₂_congr fun x _ => ih x)
  | pair t u iht ihu => exact (dump_pair _ _).trans (and_congr (iht v.1) (ihu v.2))
  | dictionary t ih =>
    unfold doc
    rw [dump_of_object, dump_members_map fun e => doc t e.2]
    exact forall₂_congr fun e _ => and_congr_right fun _ => ih e.2
  | assoc k t ihk iht =>
    refine (dump_elements_map _ v.entries).trans (forall₂_congr fun e _ => ?_)
    exact (dump_pair _ _).trans (and_congr (ihk e.1) (iht e.2))
  | option t ih =>
    cases v with
    | none => exact iff_of_true rfl trivial
    | some v => exact ih v

/-- The document of a field. -/
def root (name : Bytes) (t : Ty) (v : t.Value) : Json :=
  if written t v then .object [(name, doc t v)] else .object []

section

open SerializerOut

theorem enter_root (name : Bytes) :
    _enter name ⟨.null, [], []⟩ =
      (.ok true, ⟨.null, [(.object [(name, .null)], .key name)], []⟩) :=
  enter_object (l := []) nofun

theorem leave_root (name : Bytes) (j : Json) :
    _leave ⟨j, [(.object [(name, .null)], .key name)], []⟩ =
      (.ok (), ⟨.object [(name, j)], [], []⟩) :=
  leave_object (l := []) nofun

theorem entry_field {name : Bytes} {t : Ty} {v : t.Value} (hkept : Kept true t v)
    (habsent : t.absent v = false) :
    entry name (serialize t v) ⟨.null, [], []⟩ =
      (.ok (), ⟨.object [(name, doc t v)], [], []⟩) := by
  have hleaves : Leaves (serialize t v) (doc t v) [(.object [(name, .null)], .key name)] [name] :=
    serialize_leaves t v hkept (fun _ => rfl) (fun _ => List.cons_ne_nil _ _)
      fun _ ha => absurd (ha.symm.trans habsent) nofun
  unfold entry
  rw [Op.bind_of_ok (enter_root name), if_pos rfl, Op.bind_of_ok (Op.modify_apply _ _),
    Op.bind_of_ok hleaves, Op.bind_of_ok (Op.modify_apply _ _)]
  exact leave_root name _

theorem enforced_field {f : Write Unit} {j : Json} {name : Bytes}
    (h : Leaves f j [(.object [(name, .null)], .key name)] []) :
    (do
      let entered ← _enter name
      if entered then do
        f
        _leave
      else Op.throw (.enforce "self._enter(name)")) ⟨.null, [], []⟩ =
        (.ok (), ⟨.object [(name, j)], [], []⟩) := by
  rw [Op.bind_of_ok (enter_root name), if_pos rfl, Op.bind_of_ok h]
  exact leave_root name j

theorem field_leaves (name : Bytes) (t : Ty) (v : t.Value) (hkept : Kept (named t) t v) :
    serialize_field name t v ⟨.null, [], []⟩ = (.ok (), ⟨root name t v, [], []⟩) := by
  cases t with
  | option t =>
    cases v with
    | none => rfl
    | some v =>
      have hleaves : Leaves (serialize (.option t) (some v)) (doc (.option t) (some v))
          [(.object [(name, .null)], .key name)] [] :=
        serialize_leaves (.option t) (some v) hkept (absurd rfl) (absurd rfl) (absurd rfl)
      exact enforced_field hleaves
  | _ => exact entry_field hkept rfl

theorem not_written {t : Ty} {v : t.Value} (h : written t v = false) (name : Bytes) :
    Utf8 t v ∧ SerializerIn.Tight t v ∧ SerializerIn.read name t (.object []) = .ok v := by
  cases t with
  | option t =>
    cases v with
    | none => exact ⟨trivial, trivial, rfl⟩
    | some v => cases h
  | _ => cases h

theorem dump_root (name : Bytes) (t : Ty) (v : t.Value) :
    dump (root name t v) = true ↔ Printable name t v := by
  unfold root Printable
  cases hwritten : written t v with
  | true => simp [dump, dump_members, dump_doc]
  | false => simp [dump, dump_members, (not_written hwritten name).1]

theorem read_member (name : Bytes) (t : Ty) (j : Json) :
    SerializerIn.read name t (.object [(name, j)]) =
      SerializerIn.deserialize (if named t then name else []) t j := by
  have hfind : SerializerIn.find name (.object [(name, j)]) = .ok (some j) := by
    change Except.ok (List.lookup name [(name, j)]) = _
    simp
  cases t <;> simp only [SerializerIn.read, hfind] <;> rfl

theorem read_root (name : Bytes) (t : Ty) (v : t.Value) :
    SerializerIn.read name t (root name t v) = .ok v ↔ SerializerIn.Tight t v := by
  unfold root
  cases hwritten : written t v with
  | true =>
    rw [if_pos rfl, read_member]
    exact SerializerIn.deserialize_doc _ t v
  | false =>
    obtain ⟨-, htight, hread⟩ := not_written hwritten name
    exact iff_of_true hread htight

theorem write_eq {name : Bytes} {t : Ty} {v : t.Value} (hkept : Kept (named t) t v) :
    write name t v =
      if dump (root name t v) then .ok (root name t v) else .error .invalid_utf8 := by
  unfold write
  rw [field_leaves name t v hkept]

end

/-- A field in a document: what is read from what is written. -/
def trip (name : Bytes) (t : Ty) (v : t.Value) : Except Error t.Value := do
  let j ← SerializerOut.write name t v
  SerializerIn.read name t j

theorem trip_eq_ok {name : Bytes} {t : Ty} {v : t.Value} (hkept : Kept (named t) t v) :
    trip name t v = .ok v ↔ Printable name t v ∧ SerializerIn.Tight t v := by
  unfold trip
  rw [write_eq hkept, ← dump_root, ← read_root name]
  cases dump (root name t v) with
  | true => simp [bind, Except.bind]
  | false => simp [bind, Except.bind]

theorem write_isOk {name : Bytes} {t : Ty} {v : t.Value} (hkept : Kept (named t) t v) :
    (∃ j, SerializerOut.write name t v = .ok j) ↔ Printable name t v := by
  rw [write_eq hkept, ← dump_root]
  cases dump (root name t v) <;> simp

end json

/-! ## In bytes -/

namespace binary

open elle.binary (Error)

/-- `binary::SerializerOut`. The sizes are integers, and every integer travels as an `int64_t`. -/
def put : (t : Ty) → t.Value → Bytes
  | .bool, b => elle.binary.bool.put b
  | .integer _, n => elle.binary.put_number (elle.binary.int64 n.1)
  | .string, s => elle.binary.buffer.put s
  | .buffer, b => elle.binary.buffer.put b
  | .vector t, (l : List t.Value) => elle.binary.count.put l.length ++ l.flatMap fun v => put t v
  | .pair t u, p => elle.binary.count.put 2 ++ (put t p.1 ++ put u p.2)
  | .dictionary t, m =>
    elle.binary.count.put m.entries.length ++
      m.entries.flatMap fun e => elle.binary.buffer.put e.1 ++ put t e.2
  | .assoc k t, m =>
    elle.binary.count.put m.entries.length ++
      m.entries.flatMap fun e => elle.binary.count.put 2 ++ (put k e.1 ++ put t e.2)
  | .option _, none => elle.binary.bool.put false
  | .option t, some v => elle.binary.bool.put true ++ put t v

variable {α β : Type}

/-- `Details::deserialize` of a pair: the elements of an array, one after the other. -/
def get_pair (first : Op Bytes Error α) (second : Op Bytes Error β) : Op Bytes Error (α × β) := do
  let count ← elle.binary.count.get
  match count with
  | 0 => Op.throw (.error "too few value to unpack for a pair: 0")
  | 1 => do
    let _ ← first
    Op.throw (.error "too few value to unpack for a pair: 1")
  | 2 => do
    let a ← first
    let b ← second
    pure (a, b)
  | _ => do
    let _ ← first
    let _ ← second
    Op.throw (.error "too many values to unpack for a pair: 2")

/-- `binary::SerializerIn::_serialize_array`. -/
def get_array (element : Op Bytes Error α) : Op Bytes Error (List α) := do
  let count ← elle.binary.count.get
  Codec.times element count

def get_entry (value : Op Bytes Error α) : Op Bytes Error (Bytes × α) := do
  let key ← elle.binary.buffer.get
  let v ← value
  pure (key, v)

/-- `binary::SerializerIn::_serialize_option`. -/
def _serialize_option (value : Op Bytes Error α) : Op Bytes Error (Option α) := do
  let filled ← elle.binary.bool.get
  if filled then do
    let v ← value
    pure (some v)
  else pure none

/-- `binary::SerializerIn`. -/
def get : (t : Ty) → Op Bytes Error t.Value
  | .bool => elle.binary.bool.get
  | .integer k => do
    let n ← elle.binary.get_number
    Op.ofExcept (k.read (fun positive value => .overflow k.size positive value) n)
  | .string => elle.binary.buffer.get
  | .buffer => elle.binary.buffer.get
  | .vector t => get_array (get t)
  | .pair t u => get_pair (get t) (get u)
  | .dictionary t => do
    let entries ← get_array (get_entry (get t))
    pure (Map.of entries)
  | .assoc k t => do
    let entries ← get_array (get_pair (get k) (get t))
    pure (Assoc.of entries)
  | .option t => _serialize_option (get t)

/-- A stream starts with a zero. The fields have no names. -/
def write (t : Ty) (v : t.Value) : Bytes := 0 :: put t v

def check_magic : Op Bytes Error Unit
  | [] => (.error (.error "unable to read magic"), [])
  | magic :: s =>
    if magic = 0 then (.ok (), s)
    else (.error (.error "wrong magic for binary serialization"), s)

def read (t : Ty) : Op Bytes Error t.Value := do
  check_magic
  get t

/-- Every size is an integer, and no integer has the bits of the lowest number. -/
def Fits : (t : Ty) → t.Value → Prop
  | .bool, _ => True
  | .integer _, n => elle.binary.int64 n.1 ≠ -2 ^ 63
  | .string, (s : Bytes) => s.length < 2 ^ 31
  | .buffer, (b : Bytes) => b.length < 2 ^ 31
  | .vector t, (l : List t.Value) => l.length < 2 ^ 31 ∧ ∀ v ∈ l, Fits t v
  | .pair t u, p => Fits t p.1 ∧ Fits u p.2
  | .dictionary t, m =>
    m.entries.length < 2 ^ 31 ∧ ∀ e ∈ m.entries, e.1.length < 2 ^ 31 ∧ Fits t e.2
  | .assoc k t, m => m.entries.length < 2 ^ 31 ∧ ∀ e ∈ m.entries, Fits k e.1 ∧ Fits t e.2
  | .option _, none => True
  | .option t, some v => Fits t v

theorem get_array_reads (get : Op Bytes Error α) (put : α → Bytes) {l : List α}
    (hlength : l.length < 2 ^ 31) (h : ∀ a ∈ l, ∀ rest, get (put a ++ rest) = (.ok a, rest))
    (rest : Bytes) :
    get_array get ((elle.binary.count.put l.length ++ l.flatMap put) ++ rest) = (.ok l, rest) := by
  unfold get_array
  rw [List.append_assoc, Op.bind_of_ok (elle.binary.count.reads hlength _)]
  exact Codec.times_flatMap h rest

theorem get_pair_reads {first : Op Bytes Error α} {second : Op Bytes Error β} {u v : Bytes}
    {p : α × β} (hfirst : ∀ rest, first (u ++ rest) = (.ok p.1, rest))
    (hsecond : ∀ rest, second (v ++ rest) = (.ok p.2, rest)) (rest : Bytes) :
    get_pair first second ((elle.binary.count.put 2 ++ (u ++ v)) ++ rest) = (.ok p, rest) := by
  have htwo : elle.binary.count.fits 2 := by
    change 2 < 2 ^ 31
    omega
  unfold get_pair
  rw [List.append_assoc, List.append_assoc, Op.bind_of_ok (elle.binary.count.reads htwo _)]
  change (first >>= fun a => second >>= fun b => pure (a, b)) (u ++ (v ++ rest)) = _
  rw [Op.bind_of_ok (hfirst _), Op.bind_of_ok (hsecond _)]
  rfl

theorem get_entry_reads {value : Op Bytes Error α} {u : Bytes} {e : Bytes × α}
    (hkey : e.1.length < 2 ^ 31) (hvalue : ∀ rest, value (u ++ rest) = (.ok e.2, rest))
    (rest : Bytes) :
    get_entry value ((elle.binary.buffer.put e.1 ++ u) ++ rest) = (.ok e, rest) := by
  unfold get_entry
  rw [List.append_assoc, Op.bind_of_ok (elle.binary.buffer.reads hkey _),
    Op.bind_of_ok (hvalue rest)]
  rfl

theorem option_reads_none (value : Op Bytes Error α) (rest : Bytes) :
    _serialize_option value (elle.binary.bool.put false ++ rest) = (.ok none, rest) := by
  unfold _serialize_option
  rw [Op.bind_of_ok (elle.binary.bool.reads trivial rest)]
  rfl

theorem option_reads_some {value : Op Bytes Error α} {u : Bytes} {a : α}
    (hvalue : ∀ rest, value (u ++ rest) = (.ok a, rest)) (rest : Bytes) :
    _serialize_option value ((elle.binary.bool.put true ++ u) ++ rest) = (.ok (some a), rest) := by
  unfold _serialize_option
  rw [List.append_assoc, Op.bind_of_ok (elle.binary.bool.reads trivial _), if_pos rfl,
    Op.bind_of_ok (hvalue rest)]
  rfl

theorem get_put (t : Ty) (v : t.Value) (h : Fits t v) (rest : Bytes) :
    get t (put t v ++ rest) = (.ok v, rest) := by
  induction t generalizing rest with
  | bool => exact elle.binary.bool.reads trivial rest
  | integer k =>
    have hrange := elle.binary.int64_range v.1
    have hne : elle.binary.int64 v.1 ≠ -2 ^ 63 := h
    have hread := Integer.read_back
      (fun positive value => Error.overflow k.size positive value) v
      (elle.binary.int64_of_range hrange.1 hrange.2)
    change (elle.binary.get_number >>= fun n => Op.ofExcept (k.read _ n))
      (elle.binary.put_number (elle.binary.int64 v.1) ++ rest) = _
    rw [Op.bind_of_ok (elle.binary.get_put_number (by omega) hrange.2 rest), hread]
    rfl
  | string => exact elle.binary.buffer.reads h rest
  | buffer => exact elle.binary.buffer.reads h rest
  | vector t ih => exact get_array_reads (get t) (put t) h.1 (fun x hx => ih x (h.2 x hx)) rest
  | pair t u iht ihu => exact get_pair_reads (iht v.1 h.1) (ihu v.2 h.2) rest
  | dictionary t ih =>
    have hentries := get_array_reads (get_entry (get t))
      (fun e => elle.binary.buffer.put e.1 ++ put t e.2) h.1
      (fun e he => get_entry_reads (h.2 e he).1 (ih e.2 (h.2 e he).2)) rest
    have hmap := Op.bind_of_ok (f := fun entries => pure (Map.of entries)) hentries
    exact hmap.trans (congrArg (fun m => (Except.ok m, rest)) (Map.of_own_entries v))
  | assoc k t ihk iht =>
    have hentries := get_array_reads (get_pair (get k) (get t))
      (fun e => elle.binary.count.put 2 ++ (put k e.1 ++ put t e.2)) h.1
      (fun e he => get_pair_reads (ihk e.1 (h.2 e he).1) (iht e.2 (h.2 e he).2)) rest
    have hmap := Op.bind_of_ok (f := fun entries => pure (Assoc.of entries)) hentries
    exact hmap.trans (congrArg (fun m => (Except.ok m, rest)) (Assoc.of_own_entries v))
  | option t ih =>
    cases v with
    | none => exact option_reads_none (get t) rest
    | some v => exact option_reads_some (ih v h) rest

theorem read_write {t : Ty} {v : t.Value} (h : Fits t v) (rest : Bytes) :
    read t (write t v ++ rest) = (.ok v, rest) := by
  unfold read write
  rw [List.cons_append]
  have hmagic : check_magic (0 :: (put t v ++ rest)) = (.ok (), put t v ++ rest) := rfl
  rw [Op.bind_of_ok hmagic]
  exact get_put t v h rest

end binary

/-! ## In both formats -/

/-- A field is read back from its bytes and from its document. -/
def RoundTrips (name : Bytes) (t : Ty) (v : t.Value) : Prop :=
  (binary.read t (binary.write t v)).1 = .ok v ∧ json.trip name t v = .ok v

/-- A value whose sizes are integers is read back from its bytes. A value whose options stay in
their maps is printed exactly when its strings are UTF-8, and is read back from its document exactly
when moreover no option has a value whose document is null. -/
theorem fields_round_trip (name : Bytes) (t : Ty) (v : t.Value) :
    (binary.Fits t v → (binary.read t (binary.write t v)).1 = .ok v) ∧
      (json.Kept (json.named t) t v →
        ((∃ j, json.SerializerOut.write name t v = .ok j) ↔ json.Printable name t v) ∧
        (json.trip name t v = .ok v ↔
          json.Printable name t v ∧ json.SerializerIn.Tight t v)) := by
  constructor
  · intro hfits
    have hread := binary.read_write hfits []
    rw [List.append_nil] at hread
    rw [hread]
  · exact fun hkept => ⟨json.write_isOk hkept, json.trip_eq_ok hkept⟩

/-- A list of options and a map of strings. -/
theorem a_list_and_a_map_round_trip :
    RoundTrips [0x66] (.pair (.vector (.option (.integer .int32))) (.dictionary .string))
      ([some ⟨7, by decide⟩, none], ⟨[([0x6b], [0x76])], by simp [Ascending]⟩) := by
  have htwo : ∀ {α : Type} {P : α → Prop} {a b : α}, P a → P b → ∀ x ∈ [a, b], P x := by
    intro α P a b ha hb
    simpa using ⟨ha, hb⟩
  have hone : ∀ {α : Type} {P : α → Prop} {a : α}, P a → ∀ x ∈ [a], P x := by
    intro α P a ha
    simpa using ha
  have hseven : elle.binary.int64 7 ≠ -2 ^ 63 := by decide
  have hkey : ([0x6b] : Bytes).length < 2 ^ 31 ∧ ([0x76] : Bytes).length < 2 ^ 31 := by decide
  have hutf8 : utf8 [0x66] = true ∧ utf8 [0x6b] = true ∧ utf8 [0x76] = true := by decide +kernel
  have hboth := fields_round_trip [0x66]
    (.pair (.vector (.option (.integer .int32))) (.dictionary .string))
    ([some ⟨7, by decide⟩, none], ⟨[([0x6b], [0x76])], by simp [Ascending]⟩)
  constructor
  · exact hboth.1 ⟨⟨by decide, htwo hseven trivial⟩, by decide, hone hkey⟩
  · refine (hboth.2 ⟨htwo trivial trivial, hone ⟨trivial, nofun⟩⟩).2.2 ⟨⟨?_, ?_, ?_⟩, ?_, ?_⟩
    · exact fun _ => hutf8.1
    · exact htwo trivial trivial
    · exact hone hutf8.2
    · exact htwo ⟨rfl, trivial⟩ trivial
    · exact hone trivial

theorem long_buffer_is_lost {b : Bytes} (h : 2 ^ 31 ≤ b.length) :
    (binary.read .buffer (binary.write .buffer b)).1 ≠ .ok b := by
  intro hread
  cases hget : elle.binary.buffer.get (elle.binary.buffer.put b) with
  | mk result rest =>
    have hresult : result = .ok b := by
      have hsame : (binary.read .buffer (binary.write .buffer b)).1 = result :=
        congrArg Prod.fst hget
      rw [← hsame]
      exact hread
    rw [hresult] at hget
    have hlength : b.length < 2 ^ 31 := elle.binary.buffer.valid hget
    omega

/-- An option of an empty map, a string that is not UTF-8, a map with an option that holds no value,
and a buffer of `2 ^ 31` bytes. -/
theorem some_values_are_lost :
    ¬RoundTrips [0x66] (.option (.dictionary .bool)) (some Map.empty) ∧
      ¬RoundTrips [0x66] .string [0xff] ∧
      ¬RoundTrips [0x66] (.dictionary (.option .bool)) ⟨[([0x6b], none)], by simp [Ascending]⟩ ∧
      ¬RoundTrips [0x66] .buffer (List.replicate (2 ^ 31) 0) := by
  have hlost : ∀ {t : Ty} {v : t.Value},
      (json.trip [0x66] t v).toOption ≠ some v → ¬RoundTrips [0x66] t v := by
    intro t v hne htrip
    rw [htrip.2] at hne
    exact hne rfl
  refine ⟨hlost (by decide +kernel), hlost (by decide +kernel), hlost (by decide +kernel), ?_⟩
  intro htrip
  exact long_buffer_is_lost (by rw [List.length_replicate]) htrip.1

end elle.serialization
