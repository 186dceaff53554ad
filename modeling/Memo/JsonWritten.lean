-- What the writer of documents writes: the document of a value, in the node that
-- it is in. The nodes above stay as they are, as long as no option is taken out
-- of a map.
import Memo.JsonWriter

open codec elle.json maps ops

namespace elle.serialization.json

/-! ## The document of a value -/

/-- A map whose keys are strings gives no node to its object when it is empty. -/
def object (members : List (Bytes × Json)) : Json :=
  if members.isEmpty then .null else .object members

def doc : (t : Ty) → t.Value → Json
  | .bool, b => .boolean b
  | .integer _, n => .number n.1
  | .string, s => .string s
  | .buffer, b => .string (elle.format.base64.Stream.write b)
  | .vector t, l => .array (l.map fun v => doc t v)
  | .pair t u, p => .array [doc t p.1, doc u p.2]
  | .dictionary t, m => object (m.entries.map fun e => (e.1, doc t e.2))
  | .assoc k t, m => .array (m.entries.map fun e => .array [doc k e.1, doc t e.2])
  | .option _, none => .null
  | .option t, some v => doc t v

/-- No option that is a value of a map whose keys are strings is without a value, once a name was
entered. An element of a collection is entered under a name. -/
def Kept (named : Bool) : (t : Ty) → t.Value → Prop
  | .vector t, (l : List t.Value) => ∀ v ∈ l, Kept true t v
  | .pair t u, p => Kept named t p.1 ∧ Kept named u p.2
  | .dictionary t, m => ∀ e ∈ m.entries, Kept named t e.2 ∧ ¬(named = true ∧ t.absent e.2 = true)
  | .assoc k t, m => ∀ e ∈ m.entries, Kept true k e.1 ∧ Kept true t e.2
  | .option t, some v => Kept named t v
  | _, _ => True

namespace SerializerOut

/-! ## Nodes -/

/-- The node above is an object. -/
def InObject (above : List (Json × Slot)) : Prop :=
  ∃ members slot rest, above = (.object members, slot) :: rest

/-- From a node that is null, the program leaves a document in it, and nothing else changes. -/
def Leaves (f : Write Unit) (j : Json) (above : List (Json × Slot)) (names : List Bytes) : Prop :=
  f ⟨.null, above, names⟩ = (.ok (), ⟨j, above, names⟩)

variable {f g : Write Unit} {j j' : Json} {above : List (Json × Slot)} {names : List Bytes}

theorem set_leaves (j : Json) : Leaves (set j) j above names := rfl

theorem array_leaves {l : List Json}
    (h : f ⟨.array [], above, names⟩ = (.ok (), ⟨.array l, above, names⟩)) :
    Leaves (_serialize_array f) (.array l) above names := h

theorem enter_array (l : List Json) (name : Bytes) :
    _enter name ⟨.array l, above, names⟩ =
      (.ok true, ⟨.null, (.array (l ++ [.null]), .last) :: above, names⟩) := rfl

theorem leave_array (l : List Json) :
    _leave ⟨j, (.array (l ++ [.null]), .last) :: above, names⟩ =
      (.ok (), ⟨.array (l ++ [j]), above, names⟩) := by
  simp [_leave, plug]

theorem in_node_array {l : List Json} (name : Bytes)
    (h : Leaves f j ((.array (l ++ [.null]), .last) :: above) names) :
    in_node name f ⟨.array l, above, names⟩ = (.ok (), ⟨.array (l ++ [j]), above, names⟩) := by
  unfold in_node
  rw [Op.bind_of_ok (enter_array l name), if_pos rfl, Op.bind_of_ok h, leave_array]

theorem entry_array {l : List Json} (name : Bytes)
    (h : Leaves f j ((.array (l ++ [.null]), .last) :: above) (name :: names)) :
    entry name f ⟨.array l, above, names⟩ = (.ok (), ⟨.array (l ++ [j]), above, names⟩) := by
  unfold entry
  rw [Op.bind_of_ok (enter_array l name), if_pos rfl, Op.bind_of_ok (Op.modify_apply _ _),
    Op.bind_of_ok h, Op.bind_of_ok (Op.modify_apply _ _)]
  exact leave_array l

theorem pair_leaves (hf : Leaves f j ((.array [.null], .last) :: above) names)
    (hg : Leaves g j' ((.array [j, .null], .last) :: above) names) :
    Leaves (serialize_pair f g) (.array [j, j']) above names := by
  apply array_leaves
  rw [Op.bind_of_ok (in_node_array (l := []) [] hf)]
  exact in_node_array (l := [j]) [] hg

theorem elements_leave {α : Type} {f : α → Write Unit} {d : α → Json} {xs : List α}
    (h : ∀ x ∈ xs, ∀ l, Leaves (f x) (d x) ((.array (l ++ [.null]), .last) :: above)
      (names.head?.getD [] :: names)) :
    Leaves (_serialize_array (xs.forM fun x => do
      let name ← current_name
      entry name (f x))) (.array (xs.map d)) above names := by
  apply array_leaves
  let state : List α → SerializerOut := fun xs => ⟨.array (xs.map d), above, names⟩
  refine Op.forM_run state ?_
  intro before x later hxs
  have hname : current_name ⟨.array (before.map d), above, names⟩ =
      (.ok (names.head?.getD []), ⟨.array (before.map d), above, names⟩) := rfl
  change (current_name >>= fun name => entry name (f x)) ⟨.array (before.map d), above, names⟩ =
    (.ok (), ⟨.array ((before ++ [x]).map d), above, names⟩)
  rw [Op.bind_of_ok hname, entry_array _ (h x (by simp [hxs]) _), List.map_append]
  rfl

/-! ## Members of objects -/

theorem lookup_last {l : List (Bytes × Json)} {k : Bytes} (h : k ∉ l.map Prod.fst) (j : Json) :
    (l ++ [(k, j)]).lookup k = some j := by
  induction l with
  | nil => simp
  | cons e l ih =>
    rw [List.map_cons, List.mem_cons, not_or] at h
    rw [List.cons_append, List.lookup_cons, beq_false_of_ne h.1]
    exact ih h.2

theorem enter_object {l : List (Bytes × Json)} {k : Bytes} (h : ∀ k' ∈ l.map Prod.fst, k' < k) :
    _enter k ⟨object l, above, names⟩ =
      (.ok true, ⟨.null, (.object (l ++ [(k, .null)]), .key k) :: above, names⟩) := by
  have hnot : k ∉ l.map Prod.fst := fun hk => Std.Irrefl.irrefl (r := (· < ·)) k (h k hk)
  have hcurrent : (if (object l).kind = .null then .object [] else object l) = .object l := by
    unfold object
    cases l <;> rfl
  have hlookup : (l.lookup k).isSome = false := by
    rw [Option.isSome_eq_false_iff, Option.isNone_iff_eq_none, List.lookup_eq_none_iff]
    intro e he
    rw [bne_iff_ne]
    rintro rfl
    exact hnot (List.mem_map_of_mem he)
  unfold _enter
  simp only [hcurrent]
  rw [if_neg (by simp [hlookup]), insert_last h, lookup_last hnot]
  rfl

theorem leave_object {l : List (Bytes × Json)} {k : Bytes} (h : k ∉ l.map Prod.fst) :
    _leave ⟨j, (.object (l ++ [(k, .null)]), .key k) :: above, names⟩ =
      (.ok (), ⟨object (l ++ [(k, j)]), above, names⟩) := by
  have hmap : (l ++ [(k, Json.null)]).map (fun e => if e.1 = k then (e.1, j) else e) =
      l ++ [(k, j)] := by
    rw [List.map_append]
    congr 1
    · conv_rhs => rw [← List.map_id l]
      apply List.map_congr_left
      intro e he
      rw [if_neg]
      · rfl
      · rintro rfl
        exact h (List.mem_map_of_mem he)
    · simp
  simp only [_leave, Op.modify_apply, plug, hmap, object]
  simp

theorem members_leave {α : Type} {f : Bytes × α → Write Unit} {d : α → Json} {m : Map Bytes α}
    (h : ∀ e ∈ m.entries, ∀ l, Leaves (f e) (d e.2) ((.object l, .key e.1) :: above) names) :
    Leaves (m.entries.forM fun e => _serialize_dict_key e.1 (f e))
      (object (m.entries.map fun e => (e.1, d e.2))) above names := by
  let state : List (Bytes × α) → SerializerOut :=
    fun l => ⟨object (l.map fun e => (e.1, d e.2)), above, names⟩
  refine Op.forM_run state ?_
  intro before e later hm
  have hkeys : ∀ k ∈ (before.map fun e => (e.1, d e.2)).map Prod.fst, k < e.1 := by
    have hascending := m.ascending
    unfold Ascending at hascending
    rw [hm, List.map_append, List.pairwise_append] at hascending
    intro k hk
    rw [List.map_map] at hk
    exact hascending.2.2 k hk e.1 (by simp)
  have hnot : e.1 ∉ (before.map fun e => (e.1, d e.2)).map Prod.fst :=
    fun hk => Std.Irrefl.irrefl (r := (· < ·)) e.1 (hkeys e.1 hk)
  change in_node e.1 (f e) ⟨object (before.map fun e => (e.1, d e.2)), above, names⟩ =
    (.ok (), ⟨object ((before ++ [e]).map fun e => (e.1, d e.2)), above, names⟩)
  unfold in_node
  rw [Op.bind_of_ok (enter_object hkeys), if_pos rfl,
    Op.bind_of_ok (h e (by simp [hm]) _), leave_object hnot, List.map_append]
  rfl

/-! ## Options that hold no value -/

theorem option_leaves (habove : names ≠ [] → above ≠ [] ∧ ¬InObject above) :
    Leaves _serialize_option_absent .null above names := by
  unfold Leaves _serialize_option_absent
  rw [Op.bind_of_ok (Op.modify_apply _ _), Op.bind_of_ok (Op.get_apply _)]
  cases names with
  | nil => rfl
  | cons name names =>
    obtain ⟨hne, hobject⟩ := habove (List.cons_ne_nil _ _)
    match above, hne with
    | (.object members, slot) :: rest, _ => exact absurd ⟨members, slot, rest, rfl⟩ hobject
    | (.null, _) :: _, _ => rfl
    | (.boolean _, _) :: _, _ => rfl
    | (.number _, _) :: _, _ => rfl
    | (.string _, _) :: _, _ => rfl
    | (.array _, _) :: _, _ => rfl

/-! ## Values -/

theorem not_in_array (l : List Json) : ¬InObject ((.array l, .last) :: above) := by
  rintro ⟨members, slot, rest, h⟩
  cases h

theorem serialize_leaves (t : Ty) (v : t.Value) {named : Bool} (hkept : Kept named t v)
    {above : List (Json × Slot)} {names : List Bytes} (hnames : names ≠ [] → named = true)
    (habove : names ≠ [] → above ≠ [])
    (habsent : names ≠ [] → t.absent v = true → ¬InObject above) :
    Leaves (serialize t v) (doc t v) above names := by
  induction t generalizing named above names with
  | bool => exact set_leaves _
  | integer k => exact set_leaves _
  | string => exact set_leaves _
  | buffer => exact set_leaves _
  | vector t ih =>
    apply elements_leave
    intro x hx l
    exact ih x (hkept x hx) (fun _ => rfl) (fun _ => List.cons_ne_nil _ _)
      fun _ _ => not_in_array _
  | pair t u iht ihu =>
    have hne : ∀ l : List Json, (Json.array l, Slot.last) :: above ≠ [] :=
      fun l => List.cons_ne_nil _ _
    exact pair_leaves
      (iht v.1 hkept.1 hnames (fun _ => hne _) fun _ _ => not_in_array _)
      (ihu v.2 hkept.2 hnames (fun _ => hne _) fun _ _ => not_in_array _)
  | dictionary t ih =>
    apply members_leave
    intro e he l
    obtain ⟨hk, hnot⟩ := hkept e he
    exact ih e.2 hk hnames (fun _ => List.cons_ne_nil _ _)
      fun hn ha => absurd ⟨hnames hn, ha⟩ hnot
  | assoc k t ihk iht =>
    apply elements_leave
    intro e he l
    obtain ⟨hk, ht⟩ := hkept e he
    apply pair_leaves
    · exact ihk e.1 hk (fun _ => rfl) (fun _ => List.cons_ne_nil _ _) fun _ _ => not_in_array _
    · exact iht e.2 ht (fun _ => rfl) (fun _ => List.cons_ne_nil _ _) fun _ _ => not_in_array _
  | option t ih =>
    cases v with
    | none => exact option_leaves fun hn => ⟨habove hn, habsent hn rfl⟩
    | some v => exact ih v hkept hnames habove habsent

end SerializerOut

end elle.serialization.json
