-- Documents, as the JSON library keeps them. The strings of a document are bytes,
-- and only those that are UTF-8 can be printed.
import Memo.Base64
import Memo.Maps

open codec

namespace elle.json

/-- A document. The members of an object are in the order of their names. -/
inductive Json where
  | null
  | boolean (b : Bool)
  | number (n : Int)
  | string (s : Bytes)
  | array (elements : List Json)
  | object (members : List (Bytes × Json))

/-- `value_t`. The two types of integers are printed as one. -/
inductive Kind where
  | null
  | boolean
  | integer
  | string
  | array
  | object
deriving DecidableEq

def Json.kind : Json → Kind
  | .null => .null
  | .boolean _ => .boolean
  | .number _ => .integer
  | .string _ => .string
  | .array _ => .array
  | .object _ => .object

/-! ## UTF-8 -/

/-- The types of the bytes, then the next state from each state and each type. -/
def utf8d : List Nat :=
  List.replicate 0x80 0 ++ List.replicate 0x10 1 ++ List.replicate 0x10 9 ++
  List.replicate 0x20 7 ++ [8, 8] ++ List.replicate 0x1e 2 ++
  [0xA, 0x3, 0x3, 0x3, 0x3, 0x3, 0x3, 0x3, 0x3, 0x3, 0x3, 0x3, 0x3, 0x4, 0x3, 0x3,
    0xB, 0x6, 0x6, 0x6, 0x5, 0x8, 0x8, 0x8, 0x8, 0x8, 0x8, 0x8, 0x8, 0x8, 0x8, 0x8,
    0x0, 0x1, 0x2, 0x3, 0x5, 0x8, 0x7, 0x1, 0x1, 0x1, 0x4, 0x6, 0x1, 0x1, 0x1, 0x1,
    1, 1, 1, 1, 1, 1, 1, 1, 1, 1, 1, 1, 1, 1, 1, 1, 1, 0, 1, 1, 1, 1, 1, 0, 1, 0, 1, 1, 1, 1, 1, 1,
    1, 2, 1, 1, 1, 1, 1, 2, 1, 2, 1, 1, 1, 1, 1, 1, 1, 1, 1, 1, 1, 1, 1, 2, 1, 1, 1, 1, 1, 1, 1, 1,
    1, 2, 1, 1, 1, 1, 1, 1, 1, 2, 1, 1, 1, 1, 1, 1, 1, 1, 1, 1, 1, 1, 1, 3, 1, 3, 1, 1, 1, 1, 1, 1,
    1, 3, 1, 1, 1, 1, 1, 3, 1, 3, 1, 1, 1, 1, 1, 1, 1, 3, 1, 1, 1, 1, 1, 1, 1, 1, 1, 1, 1, 1, 1, 1]

def UTF8_ACCEPT : Nat := 0

def UTF8_REJECT : Nat := 1

/-- `serializer::decode`: the next state. -/
def decode (state : Nat) (c : UInt8) : Nat := utf8d.getD (256 + state * 16 + utf8d.getD c.toNat 0) 0

/-- `serializer::dump_escaped` from a state, with the strict handler: whether it does not throw. -/
def dump_escaped : Nat → Bytes → Bool
  | state, [] => decide (state = UTF8_ACCEPT)
  | state, c :: s =>
    if decode state c = UTF8_REJECT then false else dump_escaped (decode state c) s

/-- A string that is UTF-8. -/
def utf8 (s : Bytes) : Bool := dump_escaped UTF8_ACCEPT s

theorem decode_ascii {c : UInt8} (h : c.toNat < 0x80) : decode UTF8_ACCEPT c = UTF8_ACCEPT := by
  have hall : ∀ n < 0x80, utf8d.getD (256 + 0 * 16 + utf8d.getD n 0) 0 = 0 := by decide +kernel
  exact hall c.toNat h

theorem utf8_of_ascii {s : Bytes} (h : ∀ c ∈ s, c.toNat < 0x80) : utf8 s = true := by
  unfold utf8
  induction s with
  | nil => rfl
  | cons c s ih =>
    unfold dump_escaped
    rw [decode_ascii (h c List.mem_cons_self), if_neg (by decide)]
    exact ih fun c' hc' => h c' (List.mem_cons_of_mem c hc')

/-! ## Printing -/

mutual

/-- `serializer::dump`: whether all strings and all names are UTF-8. -/
def dump : Json → Bool
  | .string s => utf8 s
  | .array elements => dump_elements elements
  | .object members => dump_members members
  | _ => true

def dump_elements : List Json → Bool
  | [] => true
  | j :: l => dump j && dump_elements l

def dump_members : List (Bytes × Json) → Bool
  | [] => true
  | (k, j) :: l => utf8 k && dump j && dump_members l

end

variable {α : Type}

theorem dump_elements_map (d : α → Json) (l : List α) :
    dump_elements (l.map d) = true ↔ ∀ x ∈ l, dump (d x) = true := by
  induction l with
  | nil => simp [dump_elements]
  | cons x l ih => simp [dump_elements, ih]

theorem dump_members_map (d : Bytes × α → Json) (l : List (Bytes × α)) :
    dump_members (l.map fun e => (e.1, d e)) = true ↔
      ∀ e ∈ l, utf8 e.1 = true ∧ dump (d e) = true := by
  induction l with
  | nil => simp [dump_members]
  | cons e l ih => simp [dump_members, ih, and_assoc]

theorem dump_pair (j j' : Json) :
    dump (.array [j, j']) = true ↔ dump j = true ∧ dump j' = true := by
  simp [dump, dump_elements]

theorem utf8_write (b : Bytes) : utf8 (elle.format.base64.Stream.write b) = true := by
  rw [elle.format.base64.write_eq_text]
  exact utf8_of_ascii (elle.format.base64.text_ascii b)

end elle.json
