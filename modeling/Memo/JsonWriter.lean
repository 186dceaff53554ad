-- The writer of documents. It keeps the node it is in with the nodes above it,
-- and the names it entered. An option that holds no value is taken out of the
-- object above it, under the last name: in a map this is not its own.
import Memo.JsonDocuments
import Memo.SerialTypes

open codec elle.json maps ops

namespace elle.serialization.json

/-- What the writer and the reader throw. -/
inductive Error where
  | cannot_serialize (key : Bytes)
  | assertion (condition : String)
  | enforce (condition : String)
  | already_filled
  | invalid_utf8
  | missing_key (name : Bytes)
  | type_error (name : Bytes) (expected effective : Kind)
  | overflow (name : Bytes) (size : Nat) (positive : Bool) (value : Int)
  | element_size (name : Bytes) (size : Nat)
  | too_many_values (i : Nat)
  | too_few_values (i : Nat)
  | dataflow_exception (c : UInt8)
deriving DecidableEq

/-- The place of a node in the one above it. -/
inductive Slot where
  | key (name : Bytes)
  | last

/-- The node that is written, the nodes above it, which get it back when it is left, and the names
that were entered, the last one first. -/
structure SerializerOut where
  current : Json
  above : List (Json × Slot)
  _names : List Bytes

namespace SerializerOut

abbrev Write := Op SerializerOut Error

/-- `".version"`. -/
def version_key : Bytes := [0x2e, 0x76, 0x65, 0x72, 0x73, 0x69, 0x6f, 0x6e]

/-- `json::SerializerOut::_enter`. -/
def _enter (name : Bytes) : Write Bool := fun s =>
  let current := if s.current.kind = .null then .object [] else s.current
  match current with
  | .object members =>
    if name = version_key ∧ (members.lookup name).isSome then
      (.ok false, { s with current := current })
    else
      let members' := insert name .null members
      (.ok true, ⟨(members'.lookup name).getD .null, (.object members', .key name) :: s.above,
        s._names⟩)
  | .array elements =>
    (.ok true, ⟨.null, (.array (elements ++ [.null]), .last) :: s.above, s._names⟩)
  | _ => (.error (.cannot_serialize name), s)

/-- The node above gets its node back, unless it was erased from it. -/
def plug (j : Json) : Json × Slot → Json
  | (.object members, .key k) => .object (members.map fun e => if e.1 = k then (e.1, j) else e)
  | (.array elements, .last) => .array (elements.dropLast ++ [j])
  | (node, _) => node

/-- `json::SerializerOut::_leave`. -/
def _leave : Write Unit := Op.modify fun s =>
  match s.above with
  | [] => s
  | frame :: above => ⟨plug s.current frame, above, s._names⟩

/-- `Serializer::current_name`. -/
def current_name : Write Bytes := do
  let s ← Op.get
  pure (s._names.head?.getD [])

/-- A `Serializer::Entry`, and what is done in its scope. -/
def entry (name : Bytes) (f : Write Unit) : Write Unit := do
  let entered ← _enter name
  if entered then do
    Op.modify fun s => { s with _names := name :: s._names }
    f
    Op.modify fun s => { s with _names := s._names.tail }
    _leave

/-- `nlohmann::json::empty`. -/
def empty : Json → Bool
  | .null => true
  | .array l => l.isEmpty
  | .object l => l.isEmpty
  | _ => false

/-- A value in the place of `_get_current`. -/
def set (j : Json) : Write Unit := do
  let s ← Op.get
  if empty s.current then Op.modify fun s => { s with current := j }
  else Op.throw .already_filled

/-- `json::SerializerOut::_serialize_array`. -/
def _serialize_array (f : Write Unit) : Write Unit := do
  let s ← Op.get
  if s.current.kind = .null then do
    Op.modify fun s => { s with current := .array [] }
    f
  else Op.throw (.assertion "current.is_null()")

/-- A node that is entered without a change of the names, and left. -/
def in_node (name : Bytes) (f : Write Unit) : Write Unit := do
  let entered ← _enter name
  if entered then do
    f
    _leave

/-- `json::SerializerOut::_serialize_dict_key`. The value leaves its own node. -/
def _serialize_dict_key (name : Bytes) (f : Write Unit) : Write Unit := in_node name f

/-- `nlohmann::json::erase`: what is left, and whether there was something. -/
def erase (k : Bytes) (members : List (Bytes × Json)) : List (Bytes × Json) × Bool :=
  (members.filter fun e => e.1 ≠ k, (members.lookup k).isSome)

/-- `json::SerializerOut::_serialize_option` of an option that holds no value. -/
def _serialize_option_absent : Write Unit := do
  Op.modify fun s => { s with current := .null }
  let s ← Op.get
  match s._names, s.above with
  | [], _ => pure ()
  | _ :: _, [] => Op.throw (.assertion "signed(this->_current.size()) > 1")
  | name :: _, (.object members, slot) :: above =>
    if (erase name members).2 then
      Op.modify fun s => { s with above := (.object (erase name members).1, slot) :: above }
    else Op.throw (.enforce "last.erase(this->_names.back())")
  | _ :: _, _ :: _ => pure ()

/-- `SerializerOut::serialize` of a pair. Its members are entered without a name. -/
def serialize_pair (first second : Write Unit) : Write Unit :=
  _serialize_array do
    in_node [] first
    in_node [] second

/-- `Serializer::serialize_switch`. -/
def serialize : (t : Ty) → t.Value → Write Unit
  | .bool, b => set (.boolean b)
  | .integer _, n => set (.number n.1)
  | .string, s => set (.string s)
  | .buffer, b => set (.string (elle.format.base64.Stream.write b))
  | .vector t, l =>
    _serialize_array (l.forM fun v => do
      let name ← current_name
      entry name (serialize t v))
  | .pair t u, p => serialize_pair (serialize t p.1) (serialize u p.2)
  | .dictionary t, m => m.entries.forM fun e => _serialize_dict_key e.1 (serialize t e.2)
  | .assoc k t, m =>
    _serialize_array (m.entries.forM fun e => do
      let name ← current_name
      entry name (serialize_pair (serialize k e.1) (serialize t e.2)))
  | .option _, none => _serialize_option_absent
  | .option t, some v => serialize t v

/-- `json::SerializerOut::_serialize_named_option`. -/
def _serialize_named_option (filled : Bool) (f : Write Unit) : Write Unit :=
  if filled then f
  else Op.modify fun s => if s.current.kind = .null then { s with current := .object [] } else s

/-- `Serializer::serialize`. An option is entered without a name. -/
def serialize_field (name : Bytes) : (t : Ty) → t.Value → Write Unit
  | .option t, v =>
    _serialize_named_option v.isSome do
      let entered ← _enter name
      if entered then do
        serialize (.option t) v
        _leave
      else Op.throw (.enforce "self._enter(name)")
  | t, v => entry name (serialize t v)

/-- The document that a writer prints when it is destroyed. -/
def write (name : Bytes) (t : Ty) (v : t.Value) : Except Error Json :=
  match serialize_field name t v ⟨.null, [], []⟩ with
  | (.ok (), s) => if dump s.current then .ok s.current else .error .invalid_utf8
  | (.error e, _) => .error e

end SerializerOut

end elle.serialization.json
