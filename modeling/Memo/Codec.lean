-- Formats of values as bytes. A codec writes a value and reads it back, and all
-- that it reads could have been written. Codecs are put together for pairs,
-- options and lists. A reader is a program on the bytes that are left.
import Memo.Ops

open ops

namespace codec

abbrev Bytes := List UInt8

/-- How a value is written and read. What fits is read back, whatever follows it, and what is read
fits. -/
structure Codec (F α : Type) where
  put : α → Bytes
  get : Op Bytes F α
  fits : α → Prop
  reads : ∀ {a}, fits a → ∀ rest, get (put a ++ rest) = (.ok a, rest)
  valid : ∀ {s a r}, get s = (.ok a, r) → fits a

variable {F α β : Type}

/-! ## Bytes -/

/-- A number of bytes; the error says how many there are. -/
def get_bytes (n : Nat) (e : Nat → F) : Op Bytes F Bytes := fun s =>
  if n ≤ s.length then (.ok (s.take n), s.drop n) else (.error (e s.length), [])

theorem get_bytes_append (u rest : Bytes) (e : Nat → F) :
    get_bytes u.length e (u ++ rest) = (.ok u, rest) := by
  simp [get_bytes]

theorem get_bytes_of_length {n : Nat} {u : Bytes} (h : u.length = n) (rest : Bytes)
    (e : Nat → F) : get_bytes n e (u ++ rest) = (.ok u, rest) := by
  rw [← h, get_bytes_append]

theorem get_bytes_short {n : Nat} {s : Bytes} (h : s.length < n) (e : Nat → F) :
    get_bytes n e s = (.error (e s.length), []) := by
  unfold get_bytes
  rw [if_neg (by omega)]

theorem get_bytes_ok {n : Nat} {e : Nat → F} {s u r : Bytes}
    (h : get_bytes n e s = (.ok u, r)) : u.length = n ∧ s = u ++ r := by
  unfold get_bytes at h
  split at h
  · cases h
    exact ⟨List.length_take_of_le ‹_›, (List.take_append_drop n s).symm⟩
  · cases h

/-! ## How many bytes a reader takes -/

/-- A reader takes bytes from the front, and at least as many for a value as are given. -/
def Takes (get : Op Bytes F α) (size : α → Nat) : Prop :=
  ∀ s a r, get s = (.ok a, r) → ∃ used, s = used ++ r ∧ size a ≤ used.length

theorem Takes.pure {a : α} {size : α → Nat} (h : size a = 0) :
    Takes (Pure.pure a : Op Bytes F α) size := by
  intro s a' r hr
  cases hr
  exact ⟨[], rfl, by omega⟩

theorem Takes.throw (e : F) (size : α → Nat) : Takes (Op.throw e : Op Bytes F α) size := by
  intro s a r h
  cases h

theorem Takes.ofExcept {x : Except F α} {size : α → Nat} (h : ∀ a, x = .ok a → size a = 0) :
    Takes (Op.ofExcept x : Op Bytes F α) size := by
  cases x with
  | ok a => exact Takes.pure (h a rfl)
  | error e => exact Takes.throw e size

theorem Takes.mono {get : Op Bytes F α} {m n : α → Nat} (hm : Takes get m)
    (h : ∀ {s a r}, get s = (.ok a, r) → n a ≤ m a) : Takes get n := by
  intro s a r hg
  obtain ⟨used, hs, hle⟩ := hm s a r hg
  have hn := h hg
  exact ⟨used, hs, by omega⟩

theorem Takes.bind {get : Op Bytes F α} {f : α → Op Bytes F β} {m : α → Nat} {n : β → Nat}
    (hg : Takes get m) (hf : ∀ a, (∃ s r, get s = (.ok a, r)) → Takes (f a) fun b => n b - m a) :
    Takes (get >>= f) n := by
  intro s b r h
  obtain ⟨a, s', h₁, h₂⟩ := Op.bind_eq_ok h
  obtain ⟨u₁, hu₁, hm⟩ := hg s a s' h₁
  obtain ⟨u₂, hu₂, hn⟩ := hf a ⟨s, s', h₁⟩ s' b r h₂
  refine ⟨u₁ ++ u₂, ?_, ?_⟩
  · rw [hu₁, hu₂, List.append_assoc]
  · rw [List.length_append]
    simp only at hn
    omega

namespace Codec

variable (c : Codec F α) (d : Codec F β)

theorem back {a : α} {rest r : Bytes} (h : c.get (c.put a ++ rest) = (.ok a, r)) :
    c.fits a ∧ r = rest := by
  have hf := c.valid h
  rw [c.reads hf rest] at h
  cases h
  exact ⟨hf, rfl⟩

/-- No value has a shorter form than the one that is written. -/
def Minimal : Prop := Takes c.get fun a => (c.put a).length

/-! ## Conversions -/

/-- A value that is written as another one, when it is `good`. -/
def convert (repr : β → α) (of : α → Except F β) (good : β → Prop)
    (hreads : ∀ b, good b → c.fits (repr b) ∧ of (repr b) = .ok b)
    (hvalid : ∀ a b, c.fits a → of a = .ok b → good b) : Codec F β where
  put b := c.put (repr b)
  get := do
    let a ← c.get
    Op.ofExcept (of a)
  fits := good
  reads := by
    intro b hb rest
    rw [Op.bind_of_ok (c.reads (hreads b hb).1 rest), (hreads b hb).2]
    rfl
  valid := by
    intro s b r h
    obtain ⟨a, s₁, h₁, h₂⟩ := Op.bind_eq_ok h
    exact hvalid a b (c.valid h₁) (Op.ofExcept_eq_ok h₂).1

theorem convert_minimal {c : Codec F α} {repr : β → α} {of : α → Except F β} {good : β → Prop}
    {hreads : ∀ b, good b → c.fits (repr b) ∧ of (repr b) = .ok b}
    {hvalid : ∀ a b, c.fits a → of a = .ok b → good b} (hc : c.Minimal)
    (h : ∀ a b, of a = .ok b → (c.put (repr b)).length ≤ (c.put a).length) :
    (c.convert repr of good hreads hvalid).Minimal := by
  apply Takes.bind hc
  intro a _
  apply Takes.ofExcept
  intro b hb
  have hle := h a b hb
  change (c.put (repr b)).length - (c.put a).length = 0
  omega

/-! ## Pairs -/

def pair : Codec F (α × β) where
  put p := c.put p.1 ++ d.put p.2
  get := do
    let a ← c.get
    let b ← d.get
    pure (a, b)
  fits p := c.fits p.1 ∧ d.fits p.2
  reads := by
    intro p h rest
    rw [List.append_assoc, Op.bind_of_ok (c.reads h.1 _), Op.bind_of_ok (d.reads h.2 _)]
    rfl
  valid := by
    intro s p r h
    obtain ⟨a, s₁, h₁, h⟩ := Op.bind_eq_ok h
    obtain ⟨b, s₂, h₂, h⟩ := Op.bind_eq_ok h
    cases h
    exact ⟨c.valid h₁, d.valid h₂⟩

theorem pair_minimal {c : Codec F α} {d : Codec F β} (hc : c.Minimal) (hd : d.Minimal) :
    (c.pair d).Minimal := by
  apply Takes.bind hc
  intro a _
  apply Takes.bind hd
  intro b _
  apply Takes.pure
  change (c.put a ++ d.put b).length - (c.put a).length - (d.put b).length = 0
  rw [List.length_append]
  omega

/-! ## Options -/

def option (flag : Codec F Bool) (hflag : ∀ b, flag.fits b) : Codec F (Option α) where
  put
    | none => flag.put false
    | some a => flag.put true ++ c.put a
  get := do
    let filled ← flag.get
    if filled then do
      let a ← c.get
      pure (some a)
    else pure none
  fits o := ∀ a, o = some a → c.fits a
  reads := by
    intro o ho rest
    cases o with
    | none =>
      rw [Op.bind_of_ok (flag.reads (hflag false) rest)]
      rfl
    | some a =>
      rw [List.append_assoc, Op.bind_of_ok (flag.reads (hflag true) _), if_pos rfl,
        Op.bind_of_ok (c.reads (ho a rfl) rest)]
      rfl
  valid := by
    intro s o r h a ha
    obtain ⟨filled, s₁, -, h⟩ := Op.bind_eq_ok h
    cases filled with
    | false =>
      cases h
      cases ha
    | true =>
      rw [if_pos rfl] at h
      obtain ⟨a', s₂, h₂, h⟩ := Op.bind_eq_ok h
      cases h
      cases ha
      exact c.valid h₂

/-! ## Lists -/

/-- The same reader, a number of times. -/
def times (get : Op Bytes F α) : Nat → Op Bytes F (List α)
  | 0 => pure []
  | n + 1 => do
    let a ← get
    let l ← times get n
    pure (a :: l)

theorem times_flatMap {get : Op Bytes F α} {put : α → Bytes} {l : List α}
    (h : ∀ a ∈ l, ∀ rest, get (put a ++ rest) = (.ok a, rest)) (rest : Bytes) :
    times get l.length (l.flatMap put ++ rest) = (.ok l, rest) := by
  induction l with
  | nil => rfl
  | cons a l ih =>
    rw [List.flatMap_cons, List.append_assoc, List.length_cons]
    unfold times
    rw [Op.bind_of_ok (h a List.mem_cons_self _),
      Op.bind_of_ok (ih fun x hx => h x (List.mem_cons_of_mem a hx))]
    rfl

theorem times_reads {l : List α} (h : ∀ a ∈ l, c.fits a) (rest : Bytes) :
    times c.get l.length (l.flatMap c.put ++ rest) = (.ok l, rest) :=
  times_flatMap (fun a ha => c.reads (h a ha)) rest

theorem times_valid {n : Nat} {s r : Bytes} {l : List α} (h : times c.get n s = (.ok l, r)) :
    l.length = n ∧ ∀ a ∈ l, c.fits a := by
  induction n generalizing s l with
  | zero =>
    cases h
    exact ⟨rfl, fun a ha => absurd ha List.not_mem_nil⟩
  | succ n ih =>
    obtain ⟨a, s₁, h₁, h⟩ := Op.bind_eq_ok h
    obtain ⟨l', s₂, h₂, h⟩ := Op.bind_eq_ok h
    cases h
    obtain ⟨hlen, hall⟩ := ih h₂
    refine ⟨by rw [List.length_cons, hlen], ?_⟩
    intro x hx
    rcases List.mem_cons.1 hx with hx | hx
    · rw [hx]
      exact c.valid h₁
    · exact hall x hx

theorem times_takes {c : Codec F α} (hc : c.Minimal) (n : Nat) :
    Takes (times c.get n) fun l => (l.flatMap c.put).length := by
  induction n with
  | zero => exact Takes.pure rfl
  | succ n ih =>
    apply Takes.bind hc
    intro a _
    apply Takes.bind ih
    intro l _
    apply Takes.pure
    rw [List.flatMap_cons, List.length_append]
    omega

/-- A list, after the number of its elements. -/
def list (count : Codec F Nat) : Codec F (List α) where
  put l := count.put l.length ++ l.flatMap c.put
  get := do
    let n ← count.get
    times c.get n
  fits l := count.fits l.length ∧ ∀ a ∈ l, c.fits a
  reads := by
    intro l h rest
    rw [List.append_assoc, Op.bind_of_ok (count.reads h.1 _)]
    exact c.times_reads h.2 rest
  valid := by
    intro s l r h
    obtain ⟨n, s₁, h₁, h₂⟩ := Op.bind_eq_ok h
    obtain ⟨hlen, hall⟩ := c.times_valid h₂
    rw [hlen]
    exact ⟨count.valid h₁, hall⟩

theorem list_minimal {c : Codec F α} {count : Codec F Nat} (hc : c.Minimal) (hn : count.Minimal) :
    (c.list count).Minimal := by
  apply Takes.bind hn
  intro n _
  apply (times_takes hc n).mono
  intro s l r h
  change (count.put l.length ++ l.flatMap c.put).length - (count.put n).length ≤ _
  rw [(c.times_valid h).1, List.length_append]
  omega

end Codec

end codec
