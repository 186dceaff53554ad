-- The formats of elle::print: how a format is parsed, and how it is printed
-- with the arguments of a call.
import Mathlib.Data.List.Basic
import Memo.Ops

open ops

namespace elle._details

/-! ## The tree of a format -/

/-- What stands between braces, before a question mark: `Name`, `Index` or `Next`. -/
inductive Var where
  | name (n : List Char)
  | index (n : Int)
  | next
  deriving DecidableEq, Repr

/-- Where the padding is applied. -/
inductive Positioning where
  | left
  | internal
  | right
  deriving DecidableEq, Repr

/-- A formatting request a la printf. -/
structure Legacy where
  positioning : Positioning
  width : Option Nat
  fmt : Char
  padding : Char
  showpos : Bool
  deriving DecidableEq, Repr

/-- An expression that has no expression below it. -/
inductive Item where
  | literal (text : List Char)
  | var (v : Var)
  | legacy (leg : Legacy)
  deriving DecidableEq, Repr

/-- A `Composite`, from its first expression on. The condition of a `Branch` is always what the
parser of a placeholder made. -/
inductive Phrase where
  | nil
  | item (i : Item) (rest : Phrase)
  | branch (cond : Var) (then_ rest : Phrase)
  deriving DecidableEq, Repr

/-- One flag of a request. -/
def Legacy.flag (leg : Legacy) (c : Char) : Legacy :=
  match c with
  | '-' => { leg with positioning := .left }
  | '+' => { leg with showpos := true }
  | ' ' => { leg with padding := ' ' }
  | '0' => { leg with padding := '0' }
  | _ => leg

def Legacy.make (flags : List Char) (width : Option Nat) (fmt : Char) : Legacy :=
  flags.foldl Legacy.flag
    { positioning := .internal, width := width, fmt := fmt, padding := ' ', showpos := false }

/-! ## The parser -/

/-- What a backslash may stand before, and what no literal holds otherwise. -/
def special : List Char := ['\\', '{', '}', '%']

/-- The longest literal at the front, and what is left. -/
def literal : List Char → List Char × List Char
  | [] => ([], [])
  | [c] => if c ∈ special then ([], [c]) else ([c], [])
  | c :: d :: cs =>
    if c = '\\' ∧ d ∈ special then (d :: (literal cs).1, (literal cs).2)
    else if c ∈ special then ([], c :: d :: cs)
    else (c :: (literal (d :: cs)).1, (literal (d :: cs)).2)

def identifier : List Char → Option (List Char × List Char)
  | [] => none
  | c :: cs =>
    if c.isAlpha then some (c :: cs.takeWhile Char.isAlphanum, cs.dropWhile Char.isAlphanum)
    else none

/-- A number in decimal digits, one at least. -/
def digits (cs : List Char) : Option (Nat × List Char) :=
  if cs.takeWhile Char.isDigit = [] then none
  else
    some ((cs.takeWhile Char.isDigit).foldl (fun n c => 10 * n + (c.toNat - '0'.toNat)) 0,
      cs.dropWhile Char.isDigit)

/-- A number that does not fit fails. -/
def uint_ (cs : List Char) : Option (Nat × List Char) := do
  let (n, rest) ← digits cs
  if n < 2 ^ 32 then some (n, rest) else none

def int_ (cs : List Char) : Option (Int × List Char) :=
  match cs with
  | '-' :: cs => do
    let (n, rest) ← digits cs
    if n ≤ 2 ^ 31 then some (-n, rest) else none
  | '+' :: cs => do
    let (n, rest) ← digits cs
    if n < 2 ^ 31 then some ((n : Int), rest) else none
  | cs => do
    let (n, rest) ← digits cs
    if n < 2 ^ 31 then some ((n : Int), rest) else none

def var (cs : List Char) : Var × List Char :=
  match identifier cs with
  | some (n, rest) => (.name n, rest)
  | none =>
    match int_ cs with
    | some (n, rest) => (.index n, rest)
    | none => (.next, cs)

def legacy_flags : List Char := ['-', '+', '#', ' ', '0', '\'']

def legacy_fmts : List Char :=
  ['c', 'd', 'e', 'f', 'g', 'i', 'o', 'p', 'r', 's', 'u', 'x', 'C', 'E', 'G', 'S', 'X', '%']

/-- What follows a percent sign. -/
def legacy (cs : List Char) : Option (Legacy × List Char) :=
  let flags := cs.takeWhile (· ∈ legacy_flags)
  let after := cs.dropWhile (· ∈ legacy_flags)
  let (width, after) :=
    match uint_ after with
    | some (n, rest) => (some n, rest)
    | none => (none, after)
  match after with
  | [] => none
  | c :: rest => if c ∈ legacy_fmts then some (.make flags width c, rest) else none

/-- The placeholders and the requests of a phrase, each with the literal that follows it, as far
as they go. The first argument bounds the depth. -/
def pieces : Nat → List Char → Phrase × List Char
  | 0, cs => (.nil, cs)
  | fuel + 1, '{' :: cs =>
    match var cs with
    | (v, '}' :: after) =>
      let rest := pieces fuel (literal after).2
      (.item (.var v) (.item (.literal (literal after).1) rest.1), rest.2)
    | (v, '?' :: body) =>
      let inner := pieces fuel (literal body).2
      match inner.2 with
      | '}' :: after =>
        let rest := pieces fuel (literal after).2
        (.branch v (.item (.literal (literal body).1) inner.1)
          (.item (.literal (literal after).1) rest.1), rest.2)
      | _ => (.nil, '{' :: cs)
    | _ => (.nil, '{' :: cs)
  | fuel + 1, '%' :: cs =>
    match legacy cs with
    | some (leg, after) =>
      let rest := pieces fuel (literal after).2
      (.item (.legacy leg) (.item (.literal (literal after).1) rest.1), rest.2)
    | none => (.nil, '%' :: cs)
  | _ + 1, cs => (.nil, cs)

inductive Error where
  | invalid_format (input : List Char)
  | too_few (size expected : Int)
  | too_many (size count : Int) (fmt : List Char)
  | missing (name : List Char)
  | nonbool (type : List Char)
  /-- An argument threw while it was printed. -/
  | thrown
  deriving DecidableEq, Repr

/-- The text of the error, where it is one of this file's. -/
def Error.what : Error → Option String
  | .invalid_format input => some ("invalid format: " ++ String.ofList input)
  | .too_few size expected =>
    some ("too few arguments for format: " ++ toString size ++ ", expected at least "
      ++ toString expected)
  | .too_many size count fmt =>
    some ("too many arguments (" ++ toString size ++ " > " ++ toString count ++ ") for format: "
      ++ String.ofList fmt)
  | .missing name => some ("missing named format argument: " ++ String.ofList name)
  | .nonbool type => some ("type is not a truth value: " ++ String.ofList type)
  | .thrown => none

def parse (input : List Char) : Except Error Phrase :=
  let rest := pieces (input.length + 1) (literal input).2
  if rest.2 = [] then .ok (.item (.literal (literal input).1) rest.1)
  else .error (.invalid_format input)

/-! The bound on the depth is never reached. -/

theorem literal_length (cs : List Char) : (literal cs).2.length ≤ cs.length := by
  fun_induction literal cs with
  | case1 => exact Nat.le_refl _
  | case2 c h => exact Nat.le_refl _
  | case3 c h => simp
  | case4 c d cs h ih =>
    simp only [List.length_cons]
    omega
  | case5 c d cs h hc => exact Nat.le_refl _
  | case6 c d cs h hc ih =>
    simp only [List.length_cons] at ih ⊢
    omega

theorem length_dropWhile_le (p : Char → Bool) (cs : List Char) :
    (cs.dropWhile p).length ≤ cs.length := (List.dropWhile_sublist p).length_le

theorem digits_length {cs rest : List Char} {n : Nat} (h : digits cs = some (n, rest)) :
    rest.length ≤ cs.length := by
  unfold digits at h
  split at h
  · cases h
  · cases h
    exact length_dropWhile_le _ _

theorem uint_length {cs rest : List Char} {n : Nat} (h : uint_ cs = some (n, rest)) :
    rest.length ≤ cs.length := by
  unfold uint_ at h
  obtain ⟨⟨m, after⟩, hd, h⟩ := Option.bind_eq_some_iff.1 h
  dsimp only at h
  split at h
  · cases h
    exact digits_length hd
  · cases h

theorem int_length {cs rest : List Char} {n : Int} (h : int_ cs = some (n, rest)) :
    rest.length ≤ cs.length := by
  unfold int_ at h
  split at h
  all_goals
    obtain ⟨⟨m, after⟩, hd, h⟩ := Option.bind_eq_some_iff.1 h
    have hle := digits_length hd
    dsimp only at h
    split at h
    · cases h
      exact Nat.le_trans hle (by simp)
    · cases h

theorem identifier_length {cs rest n : List Char} (h : identifier cs = some (n, rest)) :
    rest.length ≤ cs.length := by
  cases cs with
  | nil => cases h
  | cons c cs =>
    simp only [identifier, Option.ite_none_right_eq_some, Option.some.injEq, Prod.mk.injEq] at h
    obtain ⟨-, -, rfl⟩ := h
    exact Nat.le_trans (length_dropWhile_le _ _) (by simp)

theorem var_length (cs : List Char) : (var cs).2.length ≤ cs.length := by
  unfold var
  split
  · exact identifier_length ‹_›
  · split
    · exact int_length ‹_›
    · exact Nat.le_refl _

theorem legacy_length {cs rest : List Char} {leg : Legacy} (h : legacy cs = some (leg, rest)) :
    rest.length < cs.length := by
  have hflags := length_dropWhile_le (· ∈ legacy_flags) cs
  unfold legacy at h
  dsimp only at h
  split at h
  · cases h
  · rename_i c after hafter
    split at h
    · cases h
      cases hw : uint_ (cs.dropWhile (· ∈ legacy_flags)) with
      | none =>
        rw [hw] at hafter
        simp only at hafter
        rw [hafter] at hflags
        exact hflags
      | some r =>
        have hle := uint_length hw
        rw [hw] at hafter
        simp only at hafter
        rw [hafter] at hle
        simp only [List.length_cons] at hle
        omega
    · cases h

theorem pieces_length (n : Nat) (cs : List Char) : (pieces n cs).2.length ≤ cs.length := by
  fun_induction pieces n cs with
  | case2 n cs v after hvar rest ih =>
    have hlen := var_length cs
    have hlit := literal_length after
    rw [hvar] at hlen
    simp only [List.length_cons, rest] at hlen ⊢
    omega
  | case3 n cs v body hvar inner after hclose rest ih ih' =>
    have hlen := var_length cs
    have hlit := literal_length body
    have hlit' := literal_length after
    rw [hvar] at hlen
    simp only [inner] at hclose
    rw [hclose] at ih
    simp only [List.length_cons, rest] at hlen ih ⊢
    omega
  | case6 n cs leg after hleg rest ih =>
    have hlen := legacy_length hleg
    have hlit := literal_length after
    simp only [List.length_cons, rest]
    omega
  | case1 | case4 | case5 | case7 | case8 => exact Nat.le_refl _

theorem pieces_enough (n : Nat) (cs : List Char) :
    ∀ m, cs.length < n → n ≤ m → pieces m cs = pieces n cs := by
  fun_induction pieces n cs with
  | case1 cs =>
    intro m h hm
    exact absurd h (Nat.not_lt_zero _)
  | case2 n cs v after hvar rest ih =>
    intro m h hm
    obtain ⟨m, rfl⟩ : ∃ k, m = k + 1 := ⟨m - 1, by omega⟩
    have hlen := var_length cs
    have hlit := literal_length after
    rw [hvar] at hlen
    simp only [List.length_cons] at h hlen
    have hrest := ih m (by omega) (by omega)
    simp only [pieces, hvar, hrest, rest]
  | case3 n cs v body hvar inner after hclose rest ih ih' =>
    intro m h hm
    obtain ⟨m, rfl⟩ : ∃ k, m = k + 1 := ⟨m - 1, by omega⟩
    have hlen := var_length cs
    have hlit := literal_length body
    have hlit' := literal_length after
    have hin := pieces_length n (literal body).2
    rw [hvar] at hlen
    simp only [inner] at hclose
    rw [hclose] at hin
    simp only [List.length_cons] at h hlen hin
    have hinner := ih m (by omega) (by omega)
    have hrest := ih' m (by omega) (by omega)
    simp only [pieces, hvar, hinner, hclose, hrest, rest, inner]
  | case4 n cs v body hvar inner hopen ih =>
    intro m h hm
    obtain ⟨m, rfl⟩ : ∃ k, m = k + 1 := ⟨m - 1, by omega⟩
    have hlen := var_length cs
    have hlit := literal_length body
    rw [hvar] at hlen
    simp only [List.length_cons] at h hlen
    have hinner := ih m (by omega) (by omega)
    simp only [pieces, hvar, hinner]
    split
    · exact (hopen _ ‹_›).elim
    · rfl
  | case5 n cs hend hopen =>
    intro m h hm
    obtain ⟨m, rfl⟩ : ∃ k, m = k + 1 := ⟨m - 1, by omega⟩
    simp only [pieces]
  | case6 n cs leg after hleg rest ih =>
    intro m h hm
    obtain ⟨m, rfl⟩ : ∃ k, m = k + 1 := ⟨m - 1, by omega⟩
    have hlen := legacy_length hleg
    have hlit := literal_length after
    simp only [List.length_cons] at h
    have hrest := ih m (by omega) (by omega)
    simp only [pieces, hleg, hrest, rest]
  | case7 n cs hleg =>
    intro m h hm
    obtain ⟨m, rfl⟩ : ∃ k, m = k + 1 := ⟨m - 1, by omega⟩
    simp only [pieces, hleg]
  | case8 n cs hbrace hpercent =>
    intro m h hm
    obtain ⟨m, rfl⟩ : ∃ k, m = k + 1 := ⟨m - 1, by omega⟩
    simp only [pieces]

/-! ## The stream -/

inductive Base where
  | dec
  | oct
  | hex
  deriving DecidableEq, Repr

inductive Floating where
  | general
  | scientific
  | fixed
  deriving DecidableEq, Repr

/-- What the saver of a request saves. -/
structure Settings where
  adjust : Positioning
  showpos : Bool
  width : Nat
  fill : Char
  base : Base
  floating : Floating
  deriving DecidableEq, Repr

structure Stream where
  text : List Char
  settings : Settings
  repr : Bool
  deriving DecidableEq, Repr

namespace Stream

def write (s : Stream) (text : List Char) : Stream := { s with text := s.text ++ text }

/-- One character, padded to the width, which is then forgotten. -/
def put (s : Stream) (c : Char) : Stream :=
  let padding := List.replicate (s.settings.width - 1) s.settings.fill
  let padded := if s.settings.adjust = .left then c :: padding else padding ++ [c]
  { s with text := s.text ++ padded, settings := { s.settings with width := 0 } }

/-- What a request asks of the stream. -/
def set (s : Stream) (leg : Legacy) : Stream :=
  let settings : Settings :=
    { s.settings with
      adjust := leg.positioning
      showpos := leg.showpos || s.settings.showpos
      width := leg.width.getD s.settings.width
      fill := leg.padding }
  match leg.fmt with
  | 'd' | 'i' | 'u' => { s with settings := { settings with base := .dec } }
  | 'e' => { s with settings := { settings with floating := .scientific } }
  | 'f' => { s with settings := { settings with floating := .fixed } }
  | 'o' => { s with settings := { settings with base := .oct } }
  | 'p' | 'x' => { s with settings := { settings with base := .hex } }
  | 'r' => { s with settings := settings, repr := true }
  | _ => { s with settings := settings }

end Stream

/-! ## Printing -/

/-- An argument: how it prints itself, which may throw, and its truth value, or the name of the
type that has none. -/
structure Argument where
  print : Op Stream Unit Unit
  truth : Except (List Char) Bool

/-- The arguments of a call. An index below zero reads what lies before the vector. -/
structure Call where
  args : List Argument
  named : List (List Char × Argument)
  before : Int → Argument

/-- The stream and the two variables of a call. `refs` is the argument that each placeholder,
request and condition stood for, in the order of the format, taken or not, and `reads` what was
read of the vector; the code keeps neither. -/
structure Printer where
  stream : Stream
  count : Nat
  full_positional : Bool
  refs : List Int
  reads : List Int

namespace Printer

def start (o : Stream) : Printer :=
  { stream := o, count := 0, full_positional := true, refs := [], reads := [] }

def counted (s : Printer) : Printer := { s with count := s.count + 1 }

def refer (n : Int) (s : Printer) : Printer := { s with refs := s.refs ++ [n] }

def read (n : Int) (s : Printer) : Printer := { s with reads := s.reads ++ [n] }

end Printer

/-- `args[n]`. -/
def Call.arg (call : Call) (n : Int) : Argument :=
  if n < 0 then call.before n else call.args.getD n.toNat (call.before n)

def nth (call : Call) (n : Int) : Op Printer Error Argument :=
  if n < call.args.length then do
    Op.modify (Printer.read n)
    pure (call.arg n)
  else Op.throw (.too_few call.args.length (n + 1))

/-- The call operator of an argument. -/
def Argument.call (arg : Argument) : Op Printer Error Unit := fun s =>
  match arg.print s.stream with
  | (.ok _, stream) => (.ok (), { s with stream })
  | (.error _, stream) => (.error .thrown, { s with stream })

def Argument.bool (arg : Argument) : Op Printer Error Bool :=
  match arg.truth with
  | .ok b => pure b
  | .error type => Op.throw (.nonbool type)

/-- The scope of a saver: the settings are what they were, also after an exception. -/
def saved (x : Op Printer Error Unit) : Op Printer Error Unit := fun s =>
  ((x s).1, { (x s).2 with stream := { (x s).2.stream with settings := s.stream.settings } })

def set_repr (d : Bool) : Op Printer Error Unit :=
  Op.modify fun s => { s with stream := { s.stream with repr := d } }

/-- A request that is printed. -/
def print_legacy (call : Call) (leg : Legacy) : Op Printer Error Unit := do
  let before ← Op.get
  Op.modify fun s => { s with stream := s.stream.set leg }
  if leg.fmt = '%' then
    Op.modify fun s => { s with stream := s.stream.put '%' }
    set_repr before.stream.repr
  else
    (← nth call before.count).call
    set_repr before.stream.repr

/-- What a placeholder does. -/
def print_var (call : Call) (p : Bool) : Var → Op Printer Error Unit
  | .next => do
    let s ← Op.get
    Op.modify (Printer.refer s.count)
    if p then
      (← nth call s.count).call
    Op.modify Printer.counted
  | .index n => do
    Op.modify fun s => { s with full_positional := false }
    Op.modify (Printer.refer n)
    if p then
      (← nth call n).call
  | .name n =>
    match call.named.lookup n with
    | none => Op.throw (.missing n)
    | some arg => if p then arg.call else pure ()

def print_item (call : Call) (p : Bool) : Item → Op Printer Error Unit
  | .literal text =>
    if p then Op.modify fun s => { s with stream := s.stream.write text } else pure ()
  | .var v => print_var call p v
  | .legacy leg => do
    let s ← Op.get
    if leg.fmt ≠ '%' then
      Op.modify (Printer.refer s.count)
    if p then
      saved (print_legacy call leg)
      -- A printed percent sign returns before the count.
      if leg.fmt = '%' then
        return
    Op.modify Printer.counted

/-- The condition of a branch that is printed if `p`: whether its body is. -/
def test (call : Call) (p : Bool) : Var → Op Printer Error Bool
  | .next => do
    let s ← Op.get
    Op.modify (Printer.refer s.count)
    let q ← if p then (do (← nth call s.count).bool) else pure false
    Op.modify Printer.counted
    pure q
  | .index n => do
    Op.modify (Printer.refer n)
    if p then (do (← nth call n).bool) else pure false
  | .name n =>
    match call.named.lookup n with
    | none => Op.throw (.missing n)
    | some arg => if p then arg.bool else pure false

def print_ast (call : Call) (p : Bool) : Phrase → Op Printer Error Unit
  | .nil => pure ()
  | .item i rest => do
    print_item call p i
    print_ast call p rest
  | .branch cond then_ rest => do
    let q ← test call p cond
    print_ast call q then_
    print_ast call p rest

/-- The arguments that are left over. -/
def check_remaining (fmt : List Char) (call : Call) : Op Printer Error Unit := do
  let s ← Op.get
  if s.full_positional ∧ s.count < call.args.length then
    Op.throw (.too_many call.args.length s.count fmt)

def print (fmt : List Char) (call : Call) : Op Printer Error Unit := do
  let ast ← Op.ofExcept (parse fmt)
  print_ast call true ast
  check_remaining fmt call

end elle._details
