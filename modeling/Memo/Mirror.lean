-- The storage that writes each block to all of its backends, one after the other or all
-- at once. An exception of a backend ends the call, and what the others wrote stays.
import Memo.Filesystem
import Memo.Strip

open ops runs stores

namespace memo.silo

/-! ## The backends that a mirror may have -/

/-- A storage as what it holds and whether it has room. -/
abbrev Backend (B : Type) : Type := Store Key Buffer Error Error.missing_key B

/-- A memory has room for everything. -/
def Memory.store : Backend Memory where
  contents m := find m._blocks
  room _ _ _ := true
  get key m := (m.get key, m)
  set := Memory.set
  erase := Memory.erase
  get_eq key m := by
    unfold Memory.get Memory._find
    cases find m._blocks key <;> rfl
  get_keeps _ _ := rfl
  set_accepted h _ := by
    rw [Memory.set_accepted h]
    exact ⟨rfl, find_put _ _ _⟩
  set_refused h := by
    obtain ⟨r, hr⟩ := Option.ne_none_iff_exists'.mp (h.resolve_right (by decide))
    rw [Memory.set_refused hr]
    exact ⟨rfl, rfl⟩
  erase_accepted h := by
    obtain ⟨prev, hprev⟩ := Option.isSome_iff_exists.mp h
    rw [Memory.erase_accepted hprev]
    exact ⟨rfl, find_put _ _ _⟩
  erase_refused h := by
    rw [Memory.erase_refused h]
    exact ⟨rfl, rfl⟩

/-- So has a tree of strips over memories. -/
def Tree.store : Backend Tree where
  contents := Tree.map
  room _ _ _ := true
  get key t := (t.get key, t)
  set := Tree.set
  erase := Tree.erase
  get_eq key t := by
    rw [t.get_spec key]
    cases t.map key <;> rfl
  get_keeps _ _ := rfl
  set_accepted h _ := by
    obtain ⟨t', hset, hchanged⟩ := Tree.set_accepted h
    rw [hset]
    exact ⟨rfl, hchanged.map⟩
  set_refused h := by
    obtain ⟨r, hr⟩ := Option.ne_none_iff_exists'.mp (h.resolve_right (by decide))
    rw [Tree.set_refused hr]
    exact ⟨rfl, rfl⟩
  erase_accepted h := by
    obtain ⟨prev, hprev⟩ := Option.isSome_iff_exists.mp h
    obtain ⟨t', herase, hchanged⟩ := Tree.erase_accepted hprev
    rw [herase]
    exact ⟨rfl, hchanged.map⟩
  erase_refused h := by
    rw [Tree.erase_refused h]
    exact ⟨rfl, rfl⟩

theorem Filesystem.contents_changed (fs : Filesystem) (key : Key) (new : Option Buffer) :
    (fs.changed key new).contents = Function.update fs.contents key new := by
  funext key'
  change find (put (_path key) new fs.files) (_path key') = _
  rw [find_put]
  by_cases hkey : key' = key
  · rw [hkey, Function.update_self, Function.update_self]
  · have hpath : _path key' ≠ _path key := fun heq => hkey (_path_injective heq)
    rw [Function.update_of_ne hkey, Function.update_of_ne hpath]
    rfl

/-- A directory of blocks has room up to its capacity. -/
def Filesystem.store : Backend Filesystem where
  contents := contents
  room key value fs := (check_capacity (delta (fs.contents key) value) fs.base).isOk
  get := get
  set := set
  erase := erase
  get_eq key fs := by
    cases hcontents : fs.contents key with
    | some value => rw [get_present hcontents]
    | none => rw [get_missing hcontents]
  get_keeps key fs := by
    cases hcontents : fs.contents key with
    | some value =>
      rw [get_present hcontents]
      rfl
    | none =>
      rw [get_missing hcontents]
      rfl
  set_accepted {key value insert update fs} h hroom := by
    have hcheck : check_capacity (delta (find fs.files (_path key)) value) fs.base = .ok () := by
      cases hc : check_capacity (delta (find fs.files (_path key)) value) fs.base with
      | ok u => rfl
      | error e =>
        change (check_capacity (delta (find fs.files (_path key)) value) fs.base).isOk = _ at hroom
        rw [hc] at hroom
        cases hroom
    rw [set_accepted hcheck h]
    exact ⟨rfl, fs.contents_changed key (some value)⟩
  set_refused {key value insert update fs} h := by
    by_cases hflags : (insert || update) = true
    · have hrefused : ¬(check_capacity (delta (find fs.files (_path key)) value) fs.base = .ok () ∧
          set_refusal fs.contents key insert update = none) := by
        rintro ⟨hcheck, hr⟩
        rcases h with h | h
        · exact h hr
        · change (check_capacity (delta (find fs.files (_path key)) value) fs.base).isOk = _ at h
          rw [hcheck] at h
          cases h
      obtain ⟨e, he⟩ := set_refused hflags hrefused
      rw [he]
      exact ⟨rfl, rfl⟩
    · have hidle : fs.set key value insert update = _ := Silo.set_idle _ fs hflags
      rw [hidle]
      exact ⟨rfl, rfl⟩
  erase_accepted {key fs} h := by
    rcases erase_cases fs key with ⟨hnone, -⟩ | ⟨prev, -, hok⟩
    · change (find fs.files (_path key)).isSome at h
      rw [hnone] at h
      cases h
    · rw [hok]
      exact ⟨rfl, fs.contents_changed key none⟩
  erase_refused {key fs} h := by
    rcases erase_cases fs key with ⟨-, he⟩ | ⟨prev, hprev, -⟩
    · rw [he]
      exact ⟨rfl, rfl⟩
    · exact absurd (hprev.symm.trans h) (Option.some_ne_none prev)

/-! ## The mirror -/

/-- `Mirror`, over one backend or more. -/
structure Mirror {last : Nat} (B : Fin (last + 1) → Type) where
  base : Silo := Silo.new none
  _balance_reads : Bool
  _backend : ∀ i, B i
  _read_counter : UInt32 := 0
  _parallel : Bool

namespace Mirror

/-- The front of the backends. -/
def front (last : Nat) : Fin (last + 1) := ⟨0, Nat.succ_pos last⟩

variable {last : Nat} {B : Fin (last + 1) → Type} {R : Type}

def on_silo (f : Silo → Silo) (m : Mirror B) : Mirror B := { m with base := f m.base }

/-- A call of one backend. -/
def on_backend (i : Fin (last + 1)) (call : ∀ i, B i → Except Error R × B i) :
    Op (∀ i, B i) Error R := fun backend =>
  let (result, b) := call i (backend i)
  (result, Function.update backend i b)

/-- Calls of backends one after the other. -/
def in_turn (call : ∀ i, B i → Except Error Int × B i) :
    List (Fin (last + 1)) → Op (∀ i, B i) Error Unit
  | [] => pure ()
  | i :: rest => do
    let _ ← on_backend i call
    in_turn call rest

/-- Calls of backends in the background of a scope, in the order in which they are done. The first
exception is thrown at the end. -/
def in_background (call : ∀ i, B i → Except Error Int × B i) :
    List (Fin (last + 1)) → Op (∀ i, B i) Error Unit
  | [] => pure ()
  | i :: rest => fun backend =>
    match on_backend i call backend with
    | (.ok _, backend) => in_background call rest backend
    | (.error e, backend) => (.error e, (in_background call rest backend).2)

/-- A call of the backends. In parallel those of `order` are done before the scope ends. -/
def each (call : ∀ i, B i → Except Error Int × B i) (order : List (Fin (last + 1))) :
    Op (Mirror B) Error Int := fun m =>
  let (result, backend) :=
    if m._parallel then
      in_background call order m._backend
    else
      in_turn call (List.finRange (last + 1)) m._backend
  (result.map fun _ => 0, { m with _backend := backend })

variable (store : ∀ i, Backend (B i))

def _get (k : Key) : Op (Mirror B) Error Buffer := fun m =>
  let counter := m._read_counter + 1
  let target := if m._balance_reads then Fin.ofNat (last + 1) counter.toNat else front last
  let (result, backend) := on_backend target (fun i => (store i).get k) m._backend
  (result, { m with _backend := backend, _read_counter := counter })

def _set (k : Key) (value : Buffer) (insert update : Bool) (order : List (Fin (last + 1))) :
    Op (Mirror B) Error Int :=
  each (fun i => (store i).set k value insert update) order

def _erase (k : Key) (order : List (Fin (last + 1))) : Op (Mirror B) Error Int :=
  each (fun i => (store i).erase k) order

def get (k : Key) : Op (Mirror B) Error Buffer := _get store k

def set (k : Key) (value : Buffer) (insert update : Bool) (order : List (Fin (last + 1))) :
    Op (Mirror B) Error Int :=
  Silo.set on_silo (_set store k value insert update order) insert update

def erase (k : Key) (order : List (Fin (last + 1))) : Op (Mirror B) Error Int :=
  Silo.erase on_silo k (_erase store k order)

/-- What a call asks of each backend. -/
def asked : Write → ∀ i, B i → Except Error Int × B i
  | .set k value insert update => fun i => (store i).set k value insert update
  | .erase k => fun i => (store i).erase k

/-- A call, and which backends are done in parallel. -/
abbrev Action (last : Nat) : Type := Write × List (Fin (last + 1))

def call (m : Mirror B) : Action last → Except Error Int × Mirror B
  | (.set k value insert update, order) => set store k value insert update order m
  | (.erase k, order) => erase store k order m

/-- In parallel each backend is called once, and all of them are done unless one throws: the scope
then ends the others, whether they are done or not. -/
def Scheduled (m : Mirror B) (a : Action last) : Prop :=
  m._parallel = true → a.2.Nodup ∧
    ((∀ i, i ∈ a.2) ∨ (in_background (asked store a.1) a.2 m._backend).1.isOk = false)

instance (m : Mirror B) (a : Action last) : Decidable (Scheduled store m a) :=
  inferInstanceAs (Decidable (_ → _))

def step (m : Mirror B) (a : Action last) : Option (Mirror B) :=
  if Scheduled store m a then some (call store m a).2 else none

/-! ## What the backends hold -/

def contents (m : Mirror B) (i : Fin (last + 1)) : Map Key Buffer :=
  (store i).contents (m._backend i)

/-- All backends hold the same. -/
def Agree (m : Mirror B) : Prop := ∀ i, contents store m i = contents store m (front last)

/-- A read is answered the same by whichever backend. -/
def SameAnswers (m : Mirror B) : Prop :=
  ∀ k balance_reads counter,
    (get store k { m with _balance_reads := balance_reads, _read_counter := counter }).1 =
      (get store k m).1

/-- A set does not come between the backends: the map refuses it, or it changes nothing, or all
have room for the value, or none of those that are called has. -/
def Alike (m : Mirror B) : Action last → Prop
  | (.set k value insert update, order) =>
    set_refusal (contents store m (front last)) k insert update ≠ none ∨
      contents store m (front last) k = some value ∨
      (∀ i, (store i).room k value (m._backend i) = true) ∨
      if m._parallel then
        ∀ i ∈ order, (store i).room k value (m._backend i) = false
      else
        (store (front last)).room k value (m._backend (front last)) = false
  | (.erase _, _) => True

theorem Agree.same_answers {m : Mirror B} (h : Agree store m) : SameAnswers store m := by
  have hget : ∀ k i, ((store i).get k (m._backend i)).1 =
      ((store (front last)).get k (m._backend (front last))).1 := by
    intro k i
    have hsame : (store i).contents (m._backend i) =
        (store (front last)).contents (m._backend (front last)) := h i
    rw [(store i).get_eq, (store (front last)).get_eq, hsame]
  intro k balance_reads counter
  exact (hget k _).trans (hget k _).symm

/-! ## Which backends are called -/

variable {f : ∀ i, B i → Except Error Int × B i}

/-- Some of the backends after their calls. -/
def after (f : ∀ i, B i → Except Error Int × B i) (l : List (Fin (last + 1)))
    (backend : ∀ i, B i) : ∀ i, B i := fun i =>
  if i ∈ l then (f i (backend i)).2 else backend i

/-- The backends that are called one after the other, up to the first that throws. -/
def reached (f : ∀ i, B i → Except Error Int × B i) (backend : ∀ i, B i) :
    List (Fin (last + 1)) → List (Fin (last + 1))
  | [] => []
  | i :: rest => i :: if (f i (backend i)).1.isOk then reached f backend rest else []

theorem after_cons {i : Fin (last + 1)} {rest : List (Fin (last + 1))} (hi : i ∉ rest)
    (backend : ∀ i, B i) :
    after f (i :: rest) backend =
      after f rest (Function.update backend i (f i (backend i)).2) := by
  funext j
  unfold after
  by_cases hj : j = i
  · subst hj
    rw [if_pos List.mem_cons_self, if_neg hi, Function.update_self]
  · rw [Function.update_of_ne hj]
    simp only [List.mem_cons, hj, false_or]

theorem update_rest {i : Fin (last + 1)} {rest : List (Fin (last + 1))} (hi : i ∉ rest)
    (backend : ∀ i, B i) (b : B i) : ∀ j ∈ rest, Function.update backend i b j = backend j := by
  intro j hj
  apply Function.update_of_ne
  intro heq
  rw [heq] at hj
  exact hi hj

theorem after_nil (backend : ∀ i, B i) : after f [] backend = backend := by
  funext i
  exact if_neg List.not_mem_nil

theorem in_background_cons (i : Fin (last + 1)) (rest : List (Fin (last + 1)))
    (backend : ∀ i, B i) :
    in_background f (i :: rest) backend =
      ((f i (backend i)).1.bind fun _ => (in_background f rest
          (Function.update backend i (f i (backend i)).2)).1,
        (in_background f rest (Function.update backend i (f i (backend i)).2)).2) := by
  rw [in_background]
  unfold on_backend
  dsimp only
  cases (f i (backend i)).1 <;> rfl

variable {l : List (Fin (last + 1))}

theorem in_background_after (hnodup : l.Nodup) (backend : ∀ i, B i) :
    (in_background f l backend).2 = after f l backend := by
  induction l generalizing backend with
  | nil => exact (after_nil backend).symm
  | cons i rest ih =>
    rw [List.nodup_cons] at hnodup
    rw [after_cons hnodup.1, ← ih hnodup.2, in_background_cons]

theorem in_background_ok (hnodup : l.Nodup) (backend : ∀ i, B i) :
    (in_background f l backend).1.isOk = true ↔
      ∀ i ∈ l, (f i (backend i)).1.isOk = true := by
  induction l generalizing backend with
  | nil => exact ⟨fun _ i hi => absurd hi List.not_mem_nil, fun _ => rfl⟩
  | cons i rest ih =>
    rw [List.nodup_cons] at hnodup
    have hrest := update_rest hnodup.1 backend (f i (backend i)).2
    rw [List.forall_mem_cons, in_background_cons]
    cases hcall : (f i (backend i)).1 with
    | error e => exact ⟨fun h => Bool.noConfusion h, fun h => Bool.noConfusion h.1⟩
    | ok d =>
      change (in_background f rest _).1.isOk = true ↔ _
      rw [ih hnodup.2]
      constructor
      · intro h
        refine ⟨rfl, fun j hj => ?_⟩
        have hj' := h j hj
        rw [hrest j hj] at hj'
        exact hj'
      · intro h j hj
        rw [hrest j hj]
        exact h.2 j hj

theorem reached_congr {backend backend' : ∀ i, B i} (h : ∀ i ∈ l, backend i = backend' i) :
    reached f backend l = reached f backend' l := by
  induction l with
  | nil => rfl
  | cons i rest ih =>
    unfold reached
    rw [h i List.mem_cons_self, ih fun j hj => h j (List.mem_cons_of_mem i hj)]

theorem reached_subset (backend : ∀ i, B i) (l : List (Fin (last + 1))) :
    ∀ i ∈ reached f backend l, i ∈ l := by
  induction l with
  | nil => exact fun _ h => h
  | cons i rest ih =>
    intro j hj
    unfold reached at hj
    rcases List.mem_cons.mp hj with heq | hj
    · exact heq ▸ List.mem_cons_self
    · split at hj
      · exact List.mem_cons_of_mem i (ih j hj)
      · cases hj

theorem in_turn_after (hnodup : l.Nodup) (backend : ∀ i, B i) :
    (in_turn f l backend).2 = after f (reached f backend l) backend := by
  induction l generalizing backend with
  | nil => exact (after_nil backend).symm
  | cons i rest ih =>
    rw [List.nodup_cons] at hnodup
    have hcongr : reached f (Function.update backend i (f i (backend i)).2) rest =
        reached f backend rest :=
      reached_congr (update_rest hnodup.1 backend _)
    have hturn : on_backend i f backend =
        ((f i (backend i)).1, Function.update backend i (f i (backend i)).2) := rfl
    unfold in_turn reached
    cases hcall : (f i (backend i)).1 with
    | error e =>
      rw [hcall] at hturn
      rw [Op.bind_of_error hturn, if_neg (fun h => Bool.noConfusion h),
        after_cons List.not_mem_nil, after_nil]
    | ok d =>
      have hi : i ∉ reached f backend rest :=
        fun hi => hnodup.1 (reached_subset backend rest i hi)
      have hok : (Except.ok d : Except Error Int).isOk = true := rfl
      rw [hcall] at hturn
      rw [Op.bind_of_ok hturn, ih hnodup.2, hcongr, if_pos hok, after_cons hi]

theorem reached_all {backend : ∀ i, B i} (h : ∀ i ∈ l, (f i (backend i)).1.isOk = true) :
    reached f backend l = l := by
  induction l with
  | nil => rfl
  | cons i rest ih =>
    unfold reached
    rw [if_pos (h i List.mem_cons_self), ih fun j hj => h j (List.mem_cons_of_mem i hj)]

/-- The backends that a call reaches. -/
def called (m : Mirror B) (a : Action last) : List (Fin (last + 1)) :=
  if m._parallel then a.2 else reached (asked store a.1) m._backend (List.finRange (last + 1))

variable {store} {m : Mirror B} {a : Action last}

theorem called_all (hs : Scheduled store m a)
    (hok : ∀ i, (asked store a.1 i (m._backend i)).1.isOk = true) (i : Fin (last + 1)) :
    i ∈ called store m a := by
  unfold called
  split
  · rename_i hparallel
    obtain ⟨hnodup, hall | herror⟩ := hs hparallel
    · exact hall i
    · have hdone := (in_background_ok hnodup m._backend).mpr fun i _ => hok i
      exact absurd (hdone.symm.trans herror) (by decide)
  · rw [reached_all fun i _ => hok i]
    exact List.mem_finRange i

theorem called_first (hparallel : ¬m._parallel = true) :
    front last ∈ called store m a ∧
      ((asked store a.1 (front last) (m._backend (front last))).1.isOk = false →
        called store m a = [front last]) := by
  have hlist : List.finRange (last + 1) = front last :: (List.finRange last).map Fin.succ :=
    List.finRange_succ
  unfold called
  rw [if_neg hparallel, hlist, reached]
  refine ⟨List.mem_cons_self, fun hstop => ?_⟩
  rw [hstop]
  rfl

theorem each_backend {order : List (Fin (last + 1))}
    (hnodup : m._parallel = true → order.Nodup) :
    (each f order m).2._backend =
      after f (if m._parallel then order else
        reached f m._backend (List.finRange (last + 1))) m._backend := by
  unfold each
  dsimp only
  split
  · rename_i hparallel
    exact in_background_after (hnodup hparallel) m._backend
  · exact in_turn_after (List.nodup_finRange (last + 1)) m._backend

theorem silo_set_backend {op : Op (Mirror B) Error Int} {insert update : Bool}
    (hflags : (insert || update) = true) :
    (Silo.set on_silo op insert update m).2._backend = (op m).2._backend := by
  cases hop : op m with
  | mk result m' =>
    cases result with
    | ok d => rw [Silo.set_of_ok hflags hop, on_silo]
    | error e => rw [Silo.set_of_error hflags hop]

theorem silo_erase_backend {op : Op (Mirror B) Error Int} {k : Key} :
    (Silo.erase on_silo k op m).2._backend = (op m).2._backend := by
  cases hop : op m with
  | mk result m' =>
    cases result with
    | ok d => rw [Silo.erase_of_ok hop, on_silo]
    | error e => rw [Silo.erase_of_error hop]

theorem set_backend {k : Key} {value : Buffer} {insert update : Bool}
    {order : List (Fin (last + 1))} (hflags : (insert || update) = true)
    (hs : Scheduled store m (.set k value insert update, order)) :
    (call store m (.set k value insert update, order)).2._backend =
      after (fun i => (store i).set k value insert update)
        (called store m (.set k value insert update, order)) m._backend :=
  (silo_set_backend hflags).trans (each_backend fun hparallel => (hs hparallel).1)

theorem erase_backend {k : Key} {order : List (Fin (last + 1))}
    (hs : Scheduled store m (.erase k, order)) :
    (call store m (.erase k, order)).2._backend =
      after (fun i => (store i).erase k) (called store m (.erase k, order)) m._backend :=
  silo_erase_backend.trans (each_backend fun hparallel => (hs hparallel).1)

/-! ## What a call leaves the backends with -/

theorem contents_kept {m' : Mirror B} (hafter : m'._backend = after f l m._backend)
    (hkept : ∀ i, (store i).contents (f i (m._backend i)).2 = contents store m i)
    (i : Fin (last + 1)) : contents store m' i = contents store m i := by
  unfold contents
  rw [hafter, after]
  split
  · exact hkept i
  · rfl

theorem all_same_iff {X : Type} {x x' : X} {p : Fin (last + 1) → Prop} [DecidablePred p] :
    (∀ i, (if p i then x' else x) = if p (front last) then x' else x) ↔
      x' = x ∨ (∀ i, p i) ∨ ∀ i, ¬p i := by
  constructor
  · intro hall
    by_cases hx : x' = x
    · exact Or.inl hx
    · right
      by_cases h0 : p (front last)
      · left
        intro i
        by_contra hi
        have hsame := hall i
        rw [if_neg hi, if_pos h0] at hsame
        exact hx hsame.symm
      · right
        intro i hi
        have hsame := hall i
        rw [if_pos hi, if_neg h0] at hsame
        exact hx hsame
  · rintro (hx | hall | hnone) i
    · rw [hx, ite_self, ite_self]
    · rw [if_pos (hall i), if_pos (hall (front last))]
    · rw [if_neg (hnone i), if_neg (hnone (front last))]

variable {k : Key} {value : Buffer} {insert update : Bool} {order : List (Fin (last + 1))}

theorem Agree.refusal (h : Agree store m) (i : Fin (last + 1)) :
    set_refusal ((store i).contents (m._backend i)) k insert update =
      set_refusal (contents store m (front last)) k insert update := by
  have hsame : (store i).contents (m._backend i) = contents store m (front last) := h i
  rw [hsame]

theorem Agree.set_refused (h : Agree store m)
    (hs : Scheduled store m (.set k value insert update, order))
    (hr : set_refusal (contents store m (front last)) k insert update ≠ none) :
    Agree store (call store m (.set k value insert update, order)).2 := by
  by_cases hflags : (insert || update) = true
  · have hrefused : ∀ i,
        set_refusal ((store i).contents (m._backend i)) k insert update ≠ none := by
      intro i
      rw [h.refusal i]
      exact hr
    have hkept : ∀ i, contents store _ i = contents store m i :=
      contents_kept (set_backend hflags hs) fun i =>
        ((store i).set_refused (Or.inl (hrefused i))).2
    intro i
    rw [hkept i, hkept (front last)]
    exact h i
  · have hidle : call store m (.set k value insert update, order) = (_, m) :=
      Silo.set_idle _ m hflags
    rw [hidle]
    exact h

theorem Agree.contents_set (h : Agree store m)
    (hs : Scheduled store m (.set k value insert update, order))
    (hr : set_refusal (contents store m (front last)) k insert update = none) (i : Fin (last + 1)) :
    contents store (call store m (.set k value insert update, order)).2 i =
      if i ∈ called store m (.set k value insert update, order) ∧
          (store i).room k value (m._backend i) = true then
        Function.update (contents store m (front last)) k (some value)
      else
        contents store m (front last) := by
  have hi : (store i).contents (m._backend i) = contents store m (front last) := h i
  have hri := (h.refusal i).trans hr
  unfold contents
  rw [set_backend (flags_of_accepted hr) hs, after]
  by_cases hcalled : i ∈ called store m (.set k value insert update, order)
  · rw [if_pos hcalled]
    cases hroom : (store i).room k value (m._backend i) with
    | true =>
      rw [if_pos ⟨hcalled, rfl⟩, ((store i).set_accepted hri hroom).2, hi]
      rfl
    | false =>
      rw [if_neg (fun hboth => Bool.noConfusion hboth.2), ((store i).set_refused (Or.inr hroom)).2]
      exact hi
  · rw [if_neg hcalled, if_neg fun hboth => hcalled hboth.1]
    exact hi

theorem Agree.all_set_iff (h : Agree store m)
    (hs : Scheduled store m (.set k value insert update, order))
    (hr : set_refusal (contents store m (front last)) k insert update = none) :
    (∀ i, i ∈ called store m (.set k value insert update, order) ∧
      (store i).room k value (m._backend i) = true) ↔
        ∀ i, (store i).room k value (m._backend i) = true := by
  refine ⟨fun hall i => (hall i).2, fun hroom i => ⟨?_, hroom i⟩⟩
  exact called_all hs (fun i => ((store i).set_accepted ((h.refusal i).trans hr) (hroom i)).1) i

theorem Agree.none_set_iff :
    (∀ i, ¬(i ∈ called store m (.set k value insert update, order) ∧
      (store i).room k value (m._backend i) = true)) ↔
        if m._parallel then
          ∀ i ∈ order, (store i).room k value (m._backend i) = false
        else
          (store (front last)).room k value (m._backend (front last)) = false := by
  split
  · rename_i hparallel
    have hcalled : called store m (.set k value insert update, order) = order := if_pos hparallel
    rw [hcalled]
    constructor
    · intro hnone i hi
      exact Bool.eq_false_iff.mpr fun hroom => hnone i ⟨hi, hroom⟩
    · intro hroom i hi
      exact Bool.noConfusion ((hroom i hi.1).symm.trans hi.2)
  · rename_i hparallel
    have hfirst : front last ∈ called store m (.set k value insert update, order) ∧ _ :=
      called_first hparallel
    constructor
    · intro hnone
      exact Bool.eq_false_iff.mpr fun hroom => hnone (front last) ⟨hfirst.1, hroom⟩
    · intro hroom i hi
      have hstop : ((store (front last)).set k value insert update
          (m._backend (front last))).1.isOk = false :=
        ((store (front last)).set_refused (Or.inr hroom)).1
      rw [hfirst.2 hstop, List.mem_singleton] at hi
      obtain ⟨rfl, htrue⟩ := hi
      exact Bool.noConfusion (hroom.symm.trans htrue)

theorem Agree.set_iff (h : Agree store m)
    (hs : Scheduled store m (.set k value insert update, order)) :
    Agree store (call store m (.set k value insert update, order)).2 ↔
      Alike store m (.set k value insert update, order) := by
  by_cases hr : set_refusal (contents store m (front last)) k insert update = none
  · unfold Agree Alike
    simp only [h.contents_set hs hr]
    rw [all_same_iff, Function.update_eq_self_iff, h.all_set_iff hs hr, Agree.none_set_iff]
    constructor
    · rintro (hsame | hrest)
      · exact Or.inr (Or.inl hsame.symm)
      · exact Or.inr (Or.inr hrest)
    · rintro (hrefused | hsame | hrest)
      · exact absurd hr hrefused
      · exact Or.inl hsame.symm
      · exact Or.inr hrest
  · exact ⟨fun _ => Or.inl hr, fun _ => h.set_refused hs hr⟩

theorem Agree.erase (h : Agree store m) (hs : Scheduled store m (.erase k, order)) :
    Agree store (call store m (.erase k, order)).2 := by
  have hi : ∀ i, (store i).contents (m._backend i) = contents store m (front last) := h
  cases hk : contents store m (front last) k with
  | none =>
    have hkept : ∀ i, contents store _ i = contents store m i :=
      contents_kept (erase_backend hs) fun i =>
        ((store i).erase_refused ((congrFun (hi i) k).trans hk)).2
    intro i
    rw [hkept i, hkept (front last)]
    exact h i
  | some value =>
    have hsome : ∀ i, ((store i).contents (m._backend i) k).isSome := by
      intro i
      rw [hi i, hk]
      rfl
    have hgone : ∀ i, contents store (call store m (.erase k, order)).2 i =
        Function.update (contents store m (front last)) k none := by
      intro i
      have hcalled := called_all hs (fun i => ((store i).erase_accepted (hsome i)).1) i
      change (store i).contents _ = _
      rw [erase_backend hs, after, if_pos hcalled, ((store i).erase_accepted (hsome i)).2, hi i]
    intro i
    rw [hgone i, hgone (front last)]

theorem Agree.call_iff (h : Agree store m) (hs : Scheduled store m a) :
    Agree store (call store m a).2 ↔ Alike store m a := by
  obtain ⟨w, order⟩ := a
  cases w with
  | set k value insert update => exact h.set_iff hs
  | erase k => exact ⟨fun _ => trivial, fun _ => h.erase hs⟩

/-! ## A whole run -/

variable (store)

theorem step_eq {m' : Mirror B} (h : step store m a = some m') :
    Scheduled store m a ∧ m' = (call store m a).2 := by
  unfold step at h
  split at h
  · rename_i hs
    exact ⟨hs, (Option.some.inj h).symm⟩
  · cases h

/-- Backends that agree do so after each call of a run, and answer alike, when and only when no
set of the run comes between them. -/
theorem backends_agree_unless_a_set_comes_between_them {m₀ m : Mirror B}
    {actions : List (Action last)} (h₀ : Agree store m₀)
    (h : Run (step store) anyStep m₀ actions m) :
    (∀ done t, done <+: actions → Run (step store) anyStep m₀ done t →
      Agree store t ∧ SameAnswers store t) ↔ Run (step store) (Alike store) m₀ actions m := by
  apply h.always_iff h₀
  · exact fun t ht => ⟨ht, ht.same_answers⟩
  · intro t a t' ht ha hstep
    obtain ⟨hs, rfl⟩ := step_eq store hstep
    exact (ht.call_iff hs).mpr ha
  · intro t a t' ht _ ha hstep hboth
    obtain ⟨hs, rfl⟩ := step_eq store hstep
    exact ha ((ht.call_iff hs).mp hboth.1)

instance (m : Mirror B) : (a : Action last) → Decidable (Alike store m a)
  | (.set _ _ _ _, _) => inferInstanceAs (Decidable (_ ∨ _ ∨ _ ∨ _))
  | (.erase _, _) => inferInstanceAs (Decidable True)

abbrev Two (_ : Fin (1 + 1)) : Type := Filesystem

abbrev two (i : Fin (1 + 1)) : Backend (Two i) := Filesystem.store

/-- A mirror over two empty directories, of which the second has room for 4 bytes. -/
def directories (parallel : Bool) : Mirror Two where
  _balance_reads := true
  _backend i := ⟨Silo.new (if i = 0 then none else some 4), ∅, ∅⟩
  _parallel := parallel

theorem directories_agree (parallel : Bool) :
    Agree two (directories parallel) := by
  intro i
  rfl

/-- Blocks that fit in both are written, replaced and removed. -/
theorem two_directories_agree :
    ∃ m, (get two (Filesystem.block 2) m).1 = .ok [4, 5] ∧
      Agree two m ∧ SameAnswers two m := by
  have hrun : ((exec (step two) (Alike two)
      (directories true) [(.set (Filesystem.block 1) [1, 2, 3] true false, [1, 0]),
        (.set (Filesystem.block 1) [1, 2] false true, [0, 1]),
        (.set (Filesystem.block 2) [4, 5] true true, [0, 1]),
        (.set (Filesystem.block 2) [6] true false, [1]),
        (.erase (Filesystem.block 1), [1, 0])]).map fun m =>
          (get two (Filesystem.block 2) m).1) = some (.ok [4, 5]) := by
    decide +kernel
  obtain ⟨m, hm, hget⟩ := Run.of_exec_map hrun
  have hany := hm.mono fun _ _ _ => trivial
  exact ⟨m, hget, (backends_agree_unless_a_set_comes_between_them _ (directories_agree true)
    hany).mpr hm _ m List.prefix_rfl hany⟩

/-- A block of 5 bytes is written to the first directory, and the second has no room for it. -/
theorem a_set_comes_between_two_directories :
    ¬∀ (last : Nat) (B : Fin (last + 1) → Type) (store : ∀ i, Backend (B i)) (m₀ m : Mirror B)
      (actions : List (Action last)), Agree store m₀ → Run (step store) anyStep m₀ actions m →
        Agree store m ∧ SameAnswers store m := by
  intro h
  have hrun : ((exec (step two) anyStep (directories false)
      [(.set (Filesystem.block 1) [1, 2, 3, 4, 5] true false, [])]).map fun m =>
        (contents two m (front 1) (Filesystem.block 1),
          contents two m 1 (Filesystem.block 1))) =
            some (some [1, 2, 3, 4, 5], none) := by
    decide +kernel
  obtain ⟨m, hm, hcontents⟩ := Run.of_exec_map hrun
  have hagree := (h 1 _ _ _ m _ (directories_agree false) hm).1 1
  rw [Prod.mk.injEq] at hcontents
  have hsame := congrFun hagree (Filesystem.block 1)
  rw [hcontents.1, hcontents.2] at hsame
  cases hsame

end Mirror

end memo.silo
