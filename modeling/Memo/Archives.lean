-- Values in two formats: as bytes, where the parts follow one another, and as a
-- document, where the parts of an object have names. A description of a value
-- serves both formats, to write and to read.
import Mathlib.Data.List.Basic
import Memo.Codec

open ops codec

namespace archive

/-- A document. -/
inductive Json where
  | null
  | bool (b : Bool)
  | number (n : Int)
  | string (s : String)
  | array (elements : List Json)
  | object (members : List (String × Json))

/-- What the readers of documents throw. -/
structure Faults (F : Type) where
  missing_key : String → F
  type_error : F
  unknown_option : F

/-- How a value is written and read. What fits is read back in both formats. -/
structure Serial (F α : Type) where
  put : α → Bytes
  get : Op Bytes F α
  json : α → Json
  of_json : Json → Except F α
  fits : α → Prop
  reads : ∀ {a}, fits a → ∀ rest, get (put a ++ rest) = (.ok a, rest)
  json_reads : ∀ {a}, fits a → of_json (json a) = .ok a

/-- A part of an object: fields with names, which are read by a look at the members. -/
structure Fields (F α : Type) where
  names : List String
  put : α → Bytes
  get : Op Bytes F α
  json : α → List (String × Json)
  of_json : (String → Option Json) → Except F α
  fits : α → Prop
  reads : ∀ {a}, fits a → ∀ rest, get (put a ++ rest) = (.ok a, rest)
  json_reads : ∀ {a}, fits a → ∀ {find : String → Option Json},
    (∀ n ∈ names, find n = (json a).lookup n) → of_json find = .ok a
  named : ∀ a, ∀ x ∈ json a, x.1 ∈ names

variable {F α β V : Type}

namespace Serial

variable (c : Serial F α)

/-! ## Lists and options -/

theorem times_reads {l : List α} (h : ∀ a ∈ l, c.fits a) (rest : Bytes) :
    Codec.times c.get l.length (l.flatMap c.put ++ rest) = (.ok l, rest) :=
  Codec.times_flatMap (fun a ha => c.reads (h a ha)) rest

theorem mapM_reads {l : List α} (h : ∀ a ∈ l, c.fits a) :
    (l.map c.json).mapM c.of_json = .ok l := by
  induction l with
  | nil => rfl
  | cons a l ih =>
    rw [List.map_cons, List.mapM_cons, c.json_reads (h a List.mem_cons_self),
      ih fun x hx => h x (List.mem_cons_of_mem a hx)]
    rfl

/-- A collection, after the number of its elements. -/
def list (e : Faults F) (count : Codec F Nat) : Serial F (List α) where
  put l := count.put l.length ++ l.flatMap c.put
  get := do
    let n ← count.get
    Codec.times c.get n
  json l := .array (l.map c.json)
  of_json
    | .array elements => elements.mapM c.of_json
    | _ => .error e.type_error
  fits l := count.fits l.length ∧ ∀ a ∈ l, c.fits a
  reads := by
    intro l h rest
    rw [List.append_assoc, Op.bind_of_ok (count.reads h.1 _)]
    exact c.times_reads h.2 rest
  json_reads h := c.mapM_reads h.2

/-- A value in another form, when it has one; the writer aborts on the others. -/
def convert (repr : β → Option α) (of : α → β) : Serial F β where
  put b := (repr b).elim [] c.put
  get := do
    let a ← c.get
    pure (of a)
  json b := (repr b).elim .null c.json
  of_json j := (c.of_json j).map of
  fits b := ∃ a, repr b = some a ∧ c.fits a ∧ of a = b
  reads := by
    rintro b ⟨a, hr, ha, rfl⟩ rest
    rw [hr, Option.elim_some, Op.bind_of_ok (c.reads ha rest)]
    rfl
  json_reads := by
    rintro b ⟨a, hr, ha, rfl⟩
    rw [hr, Option.elim_some, c.json_reads ha]
    rfl

/-- An option. A document has nothing for a value that is absent, so a value that is itself written
as nothing does not fit. -/
def option (flag : Codec F Bool) : Serial F (Option α) where
  put
    | none => flag.put false
    | some a => flag.put true ++ c.put a
  get := do
    let filled ← flag.get
    if filled then do
      let a ← c.get
      pure (some a)
    else pure none
  json
    | none => .null
    | some a => c.json a
  of_json
    | .null => .ok none
    | j => (c.of_json j).map some
  fits o := (∀ b, flag.fits b) ∧ ∀ a, o = some a → c.fits a ∧ c.json a ≠ .null
  reads := by
    rintro o ⟨hflag, ho⟩ rest
    cases o with
    | none =>
      rw [Op.bind_of_ok (flag.reads (hflag false) rest)]
      rfl
    | some a =>
      rw [List.append_assoc, Op.bind_of_ok (flag.reads (hflag true) _), if_pos rfl,
        Op.bind_of_ok (c.reads (ho a rfl).1 rest)]
      rfl
  json_reads := by
    rintro o ⟨-, ho⟩
    cases o with
    | none => rfl
    | some a =>
      obtain ⟨ha, hne⟩ := ho a rfl
      simp only
      rw [c.json_reads ha]
      rfl

end Serial

namespace Fields

variable {f : Fields F α} {g : Fields F β}

/-! ## Fields -/

/-- A field that is always there. -/
def field (e : Faults F) (name : String) (c : Serial F α) : Fields F α where
  names := [name]
  put := c.put
  get := c.get
  json a := [(name, c.json a)]
  of_json find :=
    match find name with
    | some j => c.of_json j
    | none => .error (e.missing_key name)
  fits := c.fits
  reads h rest := c.reads h rest
  json_reads := by
    intro a ha find hfind
    have hname : find name = some (c.json a) := by simpa using hfind name List.mem_cons_self
    simp only [hname]
    exact c.json_reads ha
  named a x hx := by
    simp only [List.mem_singleton] at hx ⊢
    rw [hx]

/-- A field that is left out of a document when the option is absent. -/
def optional (flag : Codec F Bool) (name : String) (c : Serial F α) : Fields F (Option α) where
  names := [name]
  put := (c.option flag).put
  get := (c.option flag).get
  json
    | none => []
    | some a => [(name, c.json a)]
  of_json find :=
    match find name with
    | some j => (c.option flag).of_json j
    | none => .ok none
  fits := (c.option flag).fits
  reads h rest := (c.option flag).reads h rest
  json_reads := by
    intro o ho find hfind
    cases o with
    | none =>
      have hname : find name = none := by simpa using hfind name List.mem_cons_self
      simp only [hname]
    | some a =>
      have hname : find name = some (c.json a) := by simpa using hfind name List.mem_cons_self
      simp only [hname]
      exact (c.option flag).json_reads ho
  named o x hx := by
    cases o with
    | none => cases hx
    | some a =>
      simp only [List.mem_singleton] at hx ⊢
      rw [hx]

/-- Fields that are only there when `p`. -/
def when (f : Fields F α) (p : Prop) [Decidable p] (default : α) : Fields F α where
  names := f.names
  put a := if p then f.put a else []
  get := if p then f.get else pure default
  json a := if p then f.json a else []
  of_json find := if p then f.of_json find else .ok default
  fits a := if p then f.fits a else a = default
  reads := by
    intro a h rest
    split_ifs at h ⊢ with hp
    · exact f.reads h rest
    · rw [h]
      rfl
  json_reads := by
    intro a h find hfind
    split_ifs at h hfind ⊢ with hp
    · exact f.json_reads h hfind
    · rw [h]
  named := by
    intro a x hx
    split_ifs at hx
    · exact f.named a x hx
    · cases hx

theorem lookup_of_named (f : Fields F α) (a : α) {n : String} (hn : n ∉ f.names) :
    (f.json a).lookup n = none := by
  refine List.lookup_eq_none_iff.mpr fun x hx => ?_
  have hne : n ≠ x.1 := by
    rintro rfl
    exact hn (f.named a x hx)
  simpa using hne

/-- The fields of `f`, then those of `g`. -/
def pair (f : Fields F α) (g : Fields F β) (hd : f.names.Disjoint g.names) :
    Fields F (α × β) where
  names := f.names ++ g.names
  put p := f.put p.1 ++ g.put p.2
  get := do
    let a ← f.get
    let b ← g.get
    pure (a, b)
  json p := f.json p.1 ++ g.json p.2
  of_json find := do
    let a ← f.of_json find
    let b ← g.of_json find
    pure (a, b)
  fits p := f.fits p.1 ∧ g.fits p.2
  reads := by
    intro p h rest
    rw [List.append_assoc, Op.bind_of_ok (f.reads h.1 _), Op.bind_of_ok (g.reads h.2 _)]
    rfl
  json_reads := by
    intro p h find hfind
    have hf : ∀ n ∈ f.names, find n = (f.json p.1).lookup n := by
      intro n hn
      rw [hfind n (List.mem_append_left _ hn), List.lookup_append,
        g.lookup_of_named p.2 fun hg => hd hn hg, Option.or_none]
    have hg : ∀ n ∈ g.names, find n = (g.json p.2).lookup n := by
      intro n hn
      rw [hfind n (List.mem_append_right _ hn), List.lookup_append,
        f.lookup_of_named p.1 fun hf => hd hf hn, Option.none_or]
    rw [f.json_reads h.1 hf, g.json_reads h.2 hg]
    rfl
  named := by
    intro p x hx
    rcases List.mem_append.mp hx with hx | hx
    · exact List.mem_append_left _ (f.named p.1 x hx)
    · exact List.mem_append_right _ (g.named p.2 x hx)

/-- A value in another form, when it has one; the writer aborts on the others. -/
def convert (f : Fields F α) (repr : β → Option α) (of : α → β) : Fields F β where
  names := f.names
  put b := (repr b).elim [] f.put
  get := do
    let a ← f.get
    pure (of a)
  json b := (repr b).elim [] f.json
  of_json find := (f.of_json find).map of
  fits b := ∃ a, repr b = some a ∧ f.fits a ∧ of a = b
  reads := by
    rintro b ⟨a, hr, ha, rfl⟩ rest
    rw [hr, Option.elim_some, Op.bind_of_ok (f.reads ha rest)]
    rfl
  json_reads := by
    rintro b ⟨a, hr, ha, rfl⟩ find hfind
    rw [hr, Option.elim_some] at hfind
    rw [f.json_reads ha hfind]
    rfl
  named := by
    intro b x hx
    cases hr : repr b with
    | none => simp [hr] at hx
    | some a => exact f.named a x (by simpa [hr] using hx)

/-- One of two values: its index, then the value itself. -/
def sum (e : Faults F) (index : Serial F Int) (c : Serial F α) (d : Serial F β) :
    Fields F (α ⊕ β) where
  names := ["type", "value"]
  put
    | .inl a => index.put 0 ++ c.put a
    | .inr b => index.put 1 ++ d.put b
  get := do
    let i ← index.get
    if i = 0 then do
      let a ← c.get
      pure (.inl a)
    else if i = 1 then do
      let b ← d.get
      pure (.inr b)
    else Op.throw e.unknown_option
  json
    | .inl a => [("type", index.json 0), ("value", c.json a)]
    | .inr b => [("type", index.json 1), ("value", d.json b)]
  of_json find := do
    let i ← (field e "type" index).of_json find
    if i = 0 then (.inl <$> (field e "value" c).of_json find)
    else if i = 1 then (.inr <$> (field e "value" d).of_json find)
    else .error e.unknown_option
  fits
    | .inl a => index.fits 0 ∧ c.fits a
    | .inr b => index.fits 1 ∧ d.fits b
  reads := by
    rintro (a | b) ⟨hi, h⟩ rest
    · rw [List.append_assoc, Op.bind_of_ok (index.reads hi _), if_pos rfl,
        Op.bind_of_ok (c.reads h rest)]
      rfl
    · rw [List.append_assoc, Op.bind_of_ok (index.reads hi _), if_neg (by decide), if_pos rfl,
        Op.bind_of_ok (d.reads h rest)]
      rfl
  json_reads := by
    rintro (a | b) ⟨hi, h⟩ find hfind
    · have htype : find "type" = some (index.json 0) := hfind "type" (by simp)
      have hvalue : find "value" = some (c.json a) := hfind "value" (by simp)
      simp only [field, htype, hvalue, index.json_reads hi, c.json_reads h]
      rfl
    · have htype : find "type" = some (index.json 1) := hfind "type" (by simp)
      have hvalue : find "value" = some (d.json b) := hfind "value" (by simp)
      simp only [field, htype, hvalue, index.json_reads hi, d.json_reads h]
      rfl
  named := by
    rintro (a | b) x hx
    · simp only [List.mem_cons, List.not_mem_nil, or_false] at hx ⊢
      rcases hx with rfl | rfl <;> simp
    · simp only [List.mem_cons, List.not_mem_nil, or_false] at hx ⊢
      rcases hx with rfl | rfl <;> simp

@[simp] theorem field_names (e : Faults F) (name : String) (c : Serial F α) :
    (field e name c).names = [name] := rfl

@[simp] theorem optional_names (flag : Codec F Bool) (name : String) (c : Serial F α) :
    (optional flag name c).names = [name] := rfl

@[simp] theorem when_names (f : Fields F α) (p : Prop) [Decidable p] (default : α) :
    (f.when p default).names = f.names := rfl

@[simp] theorem pair_names (f : Fields F α) (g : Fields F β) (hd : f.names.Disjoint g.names) :
    (f.pair g hd).names = f.names ++ g.names := rfl

@[simp] theorem convert_names (f : Fields F α) (repr : β → Option α) (of : α → β) :
    (f.convert repr of).names = f.names := rfl

@[simp] theorem sum_names (e : Faults F) (index : Serial F Int) (c : Serial F α)
    (d : Serial F β) : (sum e index c d).names = ["type", "value"] := rfl

@[simp] theorem field_fits (e : Faults F) (name : String) (c : Serial F α) (a : α) :
    (field e name c).fits a ↔ c.fits a := Iff.rfl

@[simp] theorem pair_fits (f : Fields F α) (g : Fields F β) (hd : f.names.Disjoint g.names)
    (p : α × β) : (f.pair g hd).fits p ↔ f.fits p.1 ∧ g.fits p.2 := Iff.rfl

theorem when_fits (f : Fields F α) {p : Prop} [Decidable p] (hp : p) (default a : α) :
    (f.when p default).fits a ↔ f.fits a := by
  simp [when, hp]

theorem convert_fits {f : Fields F α} {repr : β → Option α} {of : α → β} {b : β} {a : α}
    (hr : repr b = some a) (ha : f.fits a) (hof : of a = b) : (f.convert repr of).fits b :=
  ⟨a, hr, ha, hof⟩

end Fields

/-! ## Objects -/

/-- The name of the version of an object. -/
def version_key : String := ".version"

/-- An object whose fields depend on a version. With a tag, the version is written before them, and
read from there. -/
def Serial.object (e : Faults F) (tag : Option (Serial F V)) (f : V → Fields F α) (v : V) :
    Serial F α where
  put a := (tag.elim [] fun t => t.put v) ++ (f v).put a
  get := do
    let v' ← tag.elim (pure v) fun t => t.get
    (f v').get
  json a := .object ((tag.elim [] fun t => [(version_key, t.json v)]) ++ (f v).json a)
  of_json
    | .object members => do
      let v' ← tag.elim (pure v) fun t =>
        (Fields.field e version_key t).of_json fun n => members.lookup n
      (f v').of_json fun n => members.lookup n
    | _ => .error e.type_error
  fits a := (f v).fits a ∧ version_key ∉ (f v).names ∧ ∀ t, tag = some t → t.fits v
  reads := by
    rintro a ⟨ha, -, htag⟩ rest
    cases tag with
    | none => exact (f v).reads ha rest
    | some t =>
      have hbind := Op.bind_of_ok (f := fun v' => (f v').get)
        (t.reads (htag t rfl) ((f v).put a ++ rest))
      rw [Option.elim_some, List.append_assoc]
      exact hbind.trans ((f v).reads ha rest)
  json_reads := by
    rintro a ⟨ha, hnames, htag⟩
    cases tag with
    | none => exact (f v).json_reads ha fun n _ => rfl
    | some t =>
      have hversion : (Fields.field e version_key t).of_json (fun n =>
          ((version_key, t.json v) :: (f v).json a).lookup n) = .ok v := by
        simp only [Fields.field, List.lookup_cons_self]
        exact t.json_reads (htag t rfl)
      have hrest : (f v).of_json (fun n => ((version_key, t.json v) :: (f v).json a).lookup n) =
          .ok a := by
        refine (f v).json_reads ha fun n hn => ?_
        have hne : n ≠ version_key := by
          rintro rfl
          exact hnames hn
        rw [List.lookup_cons, beq_eq_false_iff_ne.mpr hne]
      simp only [Option.elim_some, List.cons_append, List.nil_append]
      rw [hversion]
      exact hrest

end archive
