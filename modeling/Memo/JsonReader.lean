-- The reader of documents. It reads back the document of a value, but for an
-- option whose value gives null: null is read as no value.
import Memo.JsonWritten

open codec elle.json maps

namespace elle.serialization.json

/-! ## Results -/

section

variable {F α β : Type}

theorem bind_eq_ok {x : Except F α} {f : α → Except F β} {b : β} :
    x >>= f = .ok b ↔ ∃ a, x = .ok a ∧ f a = .ok b := by
  cases x with
  | error e => simp [bind, Except.bind]
  | ok a => simp [bind, Except.bind]

theorem mapM_eq_ok {f : α → Except F β} {l : List α} {r : List β} :
    l.mapM f = .ok r ↔ List.Forall₂ (fun x y => f x = .ok y) l r := by
  induction l generalizing r with
  | nil =>
    rw [List.mapM_nil, List.forall₂_nil_left_iff]
    simp [pure, Except.pure, eq_comm]
  | cons x l ih =>
    rw [List.mapM_cons, List.forall₂_cons_left_iff, bind_eq_ok]
    constructor
    · rintro ⟨y, hy, h⟩
      obtain ⟨r', hr, h⟩ := bind_eq_ok.1 h
      cases h
      exact ⟨y, r', hy, ih.1 hr, rfl⟩
    · rintro ⟨y, r', hy, hr, rfl⟩
      rw [ih.2 hr]
      exact ⟨y, hy, rfl⟩

theorem mapM_map_eq_ok {f : α → Except F β} {d : β → α} {l : List β} :
    (l.map d).mapM f = .ok l ↔ ∀ x ∈ l, f (d x) = .ok x := by
  rw [mapM_eq_ok, List.forall₂_map_left_iff, List.forall₂_same]

end

namespace SerializerIn

/-! ## Reading -/

variable {α β : Type}

/-- `json::SerializerIn::_check_type`, and the value in the node. -/
def _check_type (name : Bytes) (expected : Kind) (value : Json → Option α) (j : Json) :
    Except Error α :=
  match value j with
  | some a => .ok a
  | none => .error (.type_error name expected j.kind)

def boolean? : Json → Option Bool
  | .boolean b => some b
  | _ => none

def number? : Json → Option Int
  | .number n => some n
  | _ => none

def string? : Json → Option Bytes
  | .string s => some s
  | _ => none

def array? : Json → Option (List Json)
  | .array l => some l
  | _ => none

def object? : Json → Option (List (Bytes × Json))
  | .object l => some l
  | _ => none

/-- `json::SerializerIn::_serialize` of an integer. -/
def integer (name : Bytes) (k : Integer) (n : Int) : Except Error k.Value :=
  k.read (fun positive value => .overflow name k.size positive value) n

/-- `Details::deserialize` of a pair: the elements of an array, one after the other. -/
def pair (first : Json → Except Error α) (second : Json → Except Error β) :
    List Json → Except Error (α × β)
  | [] => .error (.too_few_values 0)
  | [j] => do
    let _ ← first j
    .error (.too_few_values 1)
  | [j, j'] => do
    let a ← first j
    let b ← second j'
    pure (a, b)
  | j :: j' :: _ => do
    let _ ← first j
    let _ ← second j'
    .error (.too_many_values 2)

/-- An element of an array, as the entry of a map. -/
def legacy_entry (name : Bytes) (value : Json → Except Error α) :
    Json → Except Error (List (Bytes × α))
  | .array l =>
    match l with
    | [.string key, j] => do
      let v ← value j
      pure [(key, v)]
    | [j, _] => .error (.type_error name .string j.kind)
    | l => .error (.element_size name l.length)
  | _ => pure []

/-- `json::SerializerIn::_deserialize_dict_key`. A node that is not a map has no entries. -/
def _deserialize_dict_key (name : Bytes) (value : Json → Except Error α) :
    Json → Except Error (List (Bytes × α))
  | .object members => members.mapM fun e => do
    let v ← value e.2
    pure (e.1, v)
  | .array elements => do
    let entries ← elements.mapM (legacy_entry name value)
    pure entries.flatten
  | _ => pure []

/-- `format::base64::Stream`, from a string. -/
def buffer (s : Bytes) : Except Error Bytes :=
  match elle.format.base64.Stream.read s with
  | .ok b => .ok b
  | .error (.dataflow_exception c) => .error (.dataflow_exception c)

/-- `Serializer::serialize_switch`, of a value that was made by default, in a field. -/
def deserialize (name : Bytes) : (t : Ty) → Json → Except Error t.Value
  | .bool, j => _check_type name .boolean boolean? j
  | .integer k, j => do
    let n ← _check_type name .integer number? j
    integer name k n
  | .string, j => _check_type name .string string? j
  | .buffer, j => do
    let s ← _check_type name .string string? j
    buffer s
  | .vector t, j => do
    let l ← _check_type name .array array? j
    l.mapM fun j => deserialize name t j
  | .pair t u, j => do
    let l ← _check_type name .array array? j
    pair (fun j => deserialize name t j) (fun j => deserialize name u j) l
  | .dictionary t, j => do
    let entries ← _deserialize_dict_key name (fun j => deserialize name t j) j
    pure (Map.of entries)
  | .assoc k t, j => do
    let l ← _check_type name .array array? j
    let entries ← l.mapM fun j => do
      let l ← _check_type name .array array? j
      pair (fun j => deserialize name k j) (fun j => deserialize name t j) l
    pure (Assoc.of entries)
  | .option t, j =>
    match j with
    | .null => pure none
    | j => do
      let v ← deserialize name t j
      pure (some v)

/-- The node of a field, if there is one. -/
def find (name : Bytes) (j : Json) : Except Error (Option Json) := do
  let members ← _check_type [] .object object? j
  pure (members.lookup name)

/-- `Serializer::serialize` of a field. The name of an option is not kept. -/
def read (name : Bytes) : (t : Ty) → Json → Except Error t.Value
  | .option t, j => do
    let node ← find name j
    match node with
    | none => pure none
    | some node => deserialize [] (.option t) node
  | t, j => do
    let node ← find name j
    match node with
    | none => .error (.missing_key name)
    | some node => deserialize name t node

/-! ## Integers are checked -/

/-- A number is stored when the type has it, and else is an overflow of the field. -/
def Checked (name : Bytes) (k : Integer) (n : Int) : Prop :=
  k.Exact (fun positive value => .overflow name k.size positive value) n
    (deserialize name (.integer k) (.number n))

/-- All numbers are read as an `int64_t`. Those that are larger are taken for negative ones, and the
negative ones are taken for larger ones by the type that has these. -/
theorem integers_are_checked_iff (name : Bytes) (k : Integer) {n : Int} (hl : -2 ^ 63 ≤ n)
    (hu : n < 2 ^ 64) :
    Checked name k n ↔ (k = .uint64 → 0 ≤ n) ∧ (k.min < 0 → n < 2 ^ 64 + k.min) :=
  Integer.read_exact_iff _ k hl hu

theorem a_small_number_is_checked : Checked [] .int8 200 :=
  (integers_are_checked_iff [] .int8 (by decide) (by decide)).2 (by decide)

/-- The largest number is stored as -1 in eight bits. -/
theorem the_largest_number_is_stored_in_eight_bits :
    deserialize [] (.integer .int8) (.number 18446744073709551615) = .ok ⟨-1, by decide⟩ ∧
      ¬ ∀ (name : Bytes) (k : Integer) (n : Int), -2 ^ 63 ≤ n → n < 2 ^ 64 → Checked name k n := by
  have hread : deserialize [] (.integer .int8) (.number 18446744073709551615) =
      .ok ⟨-1, by decide⟩ := rfl
  refine ⟨hread, fun h => ?_⟩
  have hchecked := h [] .int8 18446744073709551615 (by decide) (by decide)
  unfold Checked at hchecked
  rw [hread] at hchecked
  have heq : (-1 : Int) = 18446744073709551615 := hchecked
  exact absurd heq (by decide)

/-! ## Documents are read back -/

/-- A value whose document is null. -/
def blank : (t : Ty) → t.Value → Bool
  | .dictionary _, m => m.entries.isEmpty
  | .option _, none => true
  | .option t, some v => blank t v
  | _, _ => false

/-- No option has a value whose document is null. -/
def Tight : (t : Ty) → t.Value → Prop
  | .vector t, (l : List t.Value) => ∀ v ∈ l, Tight t v
  | .pair t u, p => Tight t p.1 ∧ Tight u p.2
  | .dictionary t, m => ∀ e ∈ m.entries, Tight t e.2
  | .assoc k t, m => ∀ e ∈ m.entries, Tight k e.1 ∧ Tight t e.2
  | .option t, some v => blank t v = false ∧ Tight t v
  | _, _ => True

theorem object_eq_null (l : List (Bytes × Json)) : object l = .null ↔ l.isEmpty = true := by
  unfold object
  split <;> simp_all

theorem doc_eq_null (t : Ty) (v : t.Value) : doc t v = .null ↔ blank t v = true := by
  induction t with
  | dictionary t ih =>
    unfold doc blank
    rw [object_eq_null, List.isEmpty_iff, List.map_eq_nil_iff, List.isEmpty_iff]
  | option t ih =>
    cases v with
    | none => simp [doc, blank]
    | some v => exact ih v
  | _ => simp [doc, blank]

theorem pair_eq_ok {first : Json → Except Error α} {second : Json → Except Error β} {j j' : Json}
    {p : α × β} :
    pair first second [j, j'] = .ok p ↔ first j = .ok p.1 ∧ second j' = .ok p.2 := by
  unfold pair
  rw [bind_eq_ok]
  constructor
  · rintro ⟨a, ha, h⟩
    obtain ⟨b, hb, h⟩ := bind_eq_ok.1 h
    cases h
    exact ⟨ha, hb⟩
  · rintro ⟨ha, hb⟩
    refine ⟨p.1, ha, ?_⟩
    rw [hb]
    rfl

theorem entries_of_object (name : Bytes) (value : Json → Except Error α)
    (l : List (Bytes × Json)) :
    _deserialize_dict_key name value (object l) = l.mapM (fun e => do
      let v ← value e.2
      pure (e.1, v)) := by
  cases l <;> rfl

theorem map_eq_ok {value : Json → Except Error α} {d : α → Json} {m : Map Bytes α} :
    (do
      let entries ← (m.entries.map fun e => (e.1, d e.2)).mapM fun e => do
        let v ← value e.2
        pure (e.1, v)
      pure (Map.of entries)) = (.ok m : Except Error (Map Bytes α)) ↔
      ∀ e ∈ m.entries, value (d e.2) = .ok e.2 := by
  have hentry : ∀ e e' : Bytes × α, (do
      let v ← value (d e.2)
      pure (e.1, v)) = (.ok e' : Except Error (Bytes × α)) ↔
        e.1 = e'.1 ∧ value (d e.2) = .ok e'.2 := by
    intro e e'
    rw [bind_eq_ok]
    constructor
    · rintro ⟨v, hv, h⟩
      cases h
      exact ⟨rfl, hv⟩
    · rintro ⟨hk, hv⟩
      exact ⟨e'.2, hv, by rw [hk]; rfl⟩
  rw [bind_eq_ok]
  constructor
  · rintro ⟨entries, hread, h⟩
    rw [mapM_eq_ok, List.forall₂_map_left_iff] at hread
    have hread' : List.Forall₂ (fun e e' => e.1 = e'.1 ∧ value (d e.2) = .ok e'.2) m.entries
        entries := hread.imp fun e e' => (hentry e e').1
    have hkeys : m.entries.map Prod.fst = entries.map Prod.fst := by
      rw [← List.forall₂_eq_eq_eq, List.forall₂_map_left_iff, List.forall₂_map_right_iff]
      exact hread'.imp fun e e' he => he.1
    have hentries : entries = m.entries := by
      have hm : Map.of entries = m := by
        cases h
        rfl
      rw [← hm, Map.of_entries]
      unfold Ascending
      rw [← hkeys]
      exact m.ascending
    rw [hentries, List.forall₂_same] at hread'
    exact fun e he => (hread' e he).2
  · intro h
    refine ⟨m.entries, ?_, by rw [Map.of_own_entries]; rfl⟩
    rw [mapM_map_eq_ok]
    exact fun e he => (hentry e e).2 ⟨rfl, h e he⟩

theorem assoc_eq_ok [DecidableEq α] {entry : Json → Except Error (α × β)} {d : α × β → Json}
    {m : Assoc α β} :
    (do
      let entries ← (m.entries.map d).mapM entry
      pure (Assoc.of entries)) = (.ok m : Except Error (Assoc α β)) ↔
      ∀ e ∈ m.entries, entry (d e) = .ok e := by
  rw [bind_eq_ok]
  constructor
  · rintro ⟨entries, hread, h⟩
    have hlength := (mapM_eq_ok.1 hread).length_eq
    rw [List.length_map] at hlength
    have hm : Assoc.of entries = m := by
      cases h
      rfl
    rw [Assoc.entries_of_length hm hlength.symm] at hread
    exact mapM_map_eq_ok.1 hread
  · intro h
    exact ⟨m.entries, mapM_map_eq_ok.2 h, by rw [Assoc.of_own_entries]; rfl⟩

theorem buffer_reads_back (b : Bytes) : buffer (elle.format.base64.Stream.write b) = .ok b := by
  unfold buffer
  rw [elle.format.base64.read_write]

theorem deserialize_option {name : Bytes} {t : Ty} {j : Json} (h : j ≠ .null) :
    deserialize name (.option t) j = (do
      let v ← deserialize name t j
      pure (some v)) := by
  cases j with
  | null => exact absurd rfl h
  | _ => rfl

theorem deserialize_doc (name : Bytes) (t : Ty) (v : t.Value) :
    deserialize name t (doc t v) = .ok v ↔ Tight t v := by
  induction t with
  | bool => exact iff_of_true rfl trivial
  | integer k => exact iff_of_true (Integer.read_back _ v rfl) trivial
  | string => exact iff_of_true rfl trivial
  | buffer => exact iff_of_true (buffer_reads_back v) trivial
  | vector t ih => exact mapM_map_eq_ok.trans (forall₂_congr fun x _ => ih x)
  | pair t u iht ihu => exact pair_eq_ok.trans (and_congr (iht v.1) (ihu v.2))
  | dictionary t ih =>
    unfold deserialize doc
    rw [entries_of_object]
    exact map_eq_ok.trans (forall₂_congr fun e _ => ih e.2)
  | assoc k t ihk iht =>
    refine assoc_eq_ok.trans (forall₂_congr fun e _ => ?_)
    exact pair_eq_ok.trans (and_congr (ihk e.1) (iht e.2))
  | option t ih =>
    cases v with
    | none => exact iff_of_true rfl trivial
    | some v =>
      change deserialize name (.option t) (doc t v) = .ok (some v) ↔ blank t v = false ∧ Tight t v
      cases hblank : blank t v with
      | true =>
        rw [(doc_eq_null t v).2 hblank]
        exact iff_of_false nofun (by simp)
      | false =>
        have hnull : doc t v ≠ .null := by
          intro h
          rw [(doc_eq_null t v).1 h] at hblank
          cases hblank
        rw [deserialize_option hnull, ← ih v]
        refine bind_eq_ok.trans ?_
        constructor
        · rintro ⟨w, hw, h⟩
          cases h
          exact ⟨rfl, hw⟩
        · rintro ⟨-, hv⟩
          exact ⟨v, hv, rfl⟩

end SerializerIn

end elle.serialization.json
