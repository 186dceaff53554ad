-- `elle::AtomicFile`: a file that is written aside and put in place by renames,
-- and the recovery that its constructor makes of what a crash left.
import Memo.Disk
import Memo.Runs

open disk disk.Program runs

namespace elle

structure Path where
  parent_path : List String
  filename : String
deriving DecidableEq

/-- The path of a transaction file, hidden beside the file itself. -/
def mitigate (path : Path) (salt : String) : Path :=
  { path with filename := "." ++ path.filename ++ "." ++ salt }

theorem mitigate_ne_self (path : Path) (salt : String) : mitigate path salt ≠ path := by
  intro h
  have hlen := congrArg (fun p => p.filename.toList.length) h
  have hdot : ".".toList.length = 1 := by decide
  simp only [mitigate, String.toList_append, List.length_append, hdot] at hlen
  omega

theorem mitigate_ne {path : Path} {salt salt' : String} (h : salt ≠ salt') :
    mitigate path salt ≠ mitigate path salt' := by
  intro heq
  have hname := congrArg (fun p => p.filename.toList) heq
  simp only [mitigate, String.toList_append] at hname
  exact h (String.toList_injective (List.append_cancel_left hname))

namespace AtomicFile

variable {α : Type} {path : Path} {d d' : Disk Path α} {x : Option (List α)} {c : List α}

def _path_new (path : Path) : Path := mitigate path "new"

def _path_old (path : Path) : Path := mitigate path "old"

@[simp] theorem new_ne (path : Path) : _path_new path ≠ path := mitigate_ne_self path "new"

@[simp] theorem ne_new (path : Path) : path ≠ _path_new path := (new_ne path).symm

@[simp] theorem old_ne (path : Path) : _path_old path ≠ path := mitigate_ne_self path "old"

@[simp] theorem ne_old (path : Path) : path ≠ _path_old path := (old_ne path).symm

@[simp] theorem new_ne_old (path : Path) : _path_new path ≠ _path_old path :=
  mitigate_ne (by decide)

@[simp] theorem old_ne_new (path : Path) : _path_old path ≠ _path_new path :=
  (new_ne_old path).symm

/-! ## The programs -/

/-- A stray transaction file is removed. -/
def discard (p : Path) : Program Path α Unit := do
  if ← present p then
    remove p

def _tidy (path : Path) : Program Path α Bool := do
  if ← present path then
    discard (_path_new path)
    discard (_path_old path)
    return true
  else if ← present (_path_old path) then
    rename (_path_old path) path
    discard (_path_new path)
    return true
  else
    discard (_path_new path)
    return false

def _commit (path : Path) : Program Path α Unit := do
  let was_present ← present path
  if was_present then
    rename path (_path_old path)
  rename (_path_new path) path
  if was_present then
    remove (_path_old path)

/-- The stream of a write fills the new file one chunk after the other. -/
def fill (p : Path) : List (List α) → Program Path α Unit
  | [] => return ()
  | chunk :: chunks => do
    append p chunk
    fill p chunks

/-- A write, from the opening of its stream to its destruction. -/
def write (path : Path) (chunks : List (List α)) : Program Path α Unit := do
  create (_path_new path)
  fill (_path_new path) chunks
  _commit path

/-! ## What a disk is worth -/

/-- The content that the next construction finds. -/
def recovered (path : Path) (d : Disk Path α) : Option (List α) :=
  match d path with
  | some c => some c
  | none => d (_path_old path)

/-- The file has this content, and no transaction is under way. -/
structure Clean (path : Path) (x : Option (List α)) (d : Disk Path α) : Prop where
  content : d path = x
  no_new : d (_path_new path) = none
  no_old : d (_path_old path) = none

theorem recovered_of_some (h : d path = some c) : recovered path d = some c := by
  simp [recovered, h]

theorem recovered_of_none (h : d path = none) : recovered path d = d (_path_old path) := by
  simp [recovered, h]

theorem Clean.recovered_eq (h : Clean path x d) : recovered path d = x := by
  cases x with
  | some c => exact recovered_of_some h.content
  | none => rw [recovered_of_none h.content, h.no_old]

theorem recovered_update_new (d : Disk Path α) (y : Option (List α)) :
    recovered path (Function.update d (_path_new path) y) = recovered path d := by
  simp [recovered]

/-! ## The specifications -/

theorem discard_ends {p : Path} {I : Disk Path α → Prop} {Q : Unit → Disk Path α → Prop}
    (hI : I d) (hI' : I (Function.update d p none)) (hQ : Q () (Function.update d p none)) :
    Ends Q I (discard p) d := by
  refine Ends.bind (Ends.present hI ?_)
  cases hp : d p with
  | some c => exact Ends.remove hI hI' hQ
  | none =>
    have hsame : Function.update d p none = d := by rw [← hp, Function.update_eq_self]
    exact Ends.pure hI (hsame ▸ hQ)

theorem tidy_ends (h : recovered path d = x) :
    Ends (fun e d' => e = x.isSome ∧ Clean path x d') (fun d' => recovered path d' = x)
      (_tidy path) d := by
  have hnew := (recovered_update_new d none).trans h
  refine Ends.bind (Ends.present h ?_)
  cases hp : d path with
  | some c =>
    obtain rfl : some c = x := (recovered_of_some hp).symm.trans h
    refine Ends.bind (discard_ends h hnew ?_)
    refine Ends.bind (discard_ends hnew (recovered_of_some (by simp [hp])) ?_)
    exact Ends.pure (recovered_of_some (by simp [hp]))
      ⟨rfl, by simp [hp], by simp, by simp⟩
  | none =>
    rw [recovered_of_none hp] at h
    refine Ends.bind (Ends.present ((recovered_of_none hp).trans h) ?_)
    cases ho : d (_path_old path) with
    | some c =>
      obtain rfl : some c = x := ho.symm.trans h
      have hrestored : recovered path
          (Function.update (Function.update d (_path_old path) none) path (some c)) = some c :=
        recovered_of_some (by simp)
      refine Ends.bind (Ends.rename ((recovered_of_none hp).trans ho) ho hrestored ?_)
      refine Ends.bind (discard_ends hrestored (recovered_of_some (by simp)) ?_)
      exact Ends.pure (recovered_of_some (by simp)) ⟨rfl, by simp, by simp, by simp⟩
    | none =>
      obtain rfl : none = x := ho.symm.trans h
      refine Ends.bind (discard_ends ((recovered_of_none hp).trans ho) hnew ?_)
      exact Ends.pure hnew ⟨rfl, by simp [hp], by simp, by simp [ho]⟩

theorem fill_ends {I : Disk Path α → Prop} {Q : Unit → Disk Path α → Prop}
    (hI : ∀ y, I (Function.update d (_path_new path) (some y))) (chunks : List (List α))
    (written : List α)
    (hQ : Q () (Function.update d (_path_new path) (some (written ++ chunks.flatten)))) :
    Ends Q I (fill (_path_new path) chunks)
      (Function.update d (_path_new path) (some written)) := by
  induction chunks generalizing written with
  | nil => exact Ends.pure (hI written) (by simpa using hQ)
  | cons chunk chunks ih =>
    have hnext : Function.update (Function.update d (_path_new path) (some written))
        (_path_new path) (some (written ++ chunk)) =
          Function.update d (_path_new path) (some (written ++ chunk)) := by simp
    refine Ends.bind (Ends.append (hI written) (by simp) (hnext ▸ hI _) ?_)
    rw [hnext]
    exact ih (written ++ chunk) (by simpa using hQ)

theorem commit_ends (hp : d path = x) (hn : d (_path_new path) = some c)
    (ho : d (_path_old path) = none) :
    Ends (fun _ => Clean path (some c))
      (fun d' => recovered path d' = x ∨ recovered path d' = some c) (_commit path) d := by
  cases x with
  | some old =>
    have hstart : recovered path d = some old := recovered_of_some hp
    refine Ends.bind (Ends.present (Or.inl hstart) ?_)
    rw [hp]
    have haside : recovered path
        (Function.update (Function.update d path none) (_path_old path) (some old)) = some old := by
      rw [recovered_of_none (by simp)]
      simp
    refine Ends.bind (Ends.rename (Or.inl hstart) hp (Or.inl haside) ?_)
    have hplaced : recovered path (Function.update (Function.update (Function.update
        (Function.update d path none) (_path_old path) (some old)) (_path_new path) none) path
          (some c)) = some c := recovered_of_some (by simp)
    refine Ends.bind (Ends.rename (c := c) (Or.inl haside) (by simp [hn]) (Or.inr hplaced) ?_)
    exact Ends.remove (Or.inr hplaced) (Or.inr (recovered_of_some (by simp)))
      ⟨by simp, by simp, by simp⟩
  | none =>
    have hstart : recovered path d = none := (recovered_of_none hp).trans ho
    refine Ends.bind (Ends.present (Or.inl hstart) ?_)
    rw [hp]
    have hplaced : recovered path (Function.update (Function.update d (_path_new path) none) path
        (some c)) = some c := recovered_of_some (by simp)
    refine Ends.bind (Ends.rename (Or.inl hstart) hn (Or.inr hplaced) ?_)
    exact Ends.pure (Or.inr hplaced) ⟨by simp, by simp, by simp [ho]⟩

theorem write_ends (h : Clean path x d) (chunks : List (List α)) :
    Ends (fun _ => Clean path (some chunks.flatten))
      (fun d' => recovered path d' = x ∨ recovered path d' = some chunks.flatten)
      (write path chunks) d := by
  have hfilled : ∀ y, recovered path (Function.update d (_path_new path) y) = x :=
    fun y => (recovered_update_new d y).trans h.recovered_eq
  refine Ends.bind (Ends.create (Or.inl h.recovered_eq) (Or.inl (hfilled _)) ?_)
  refine Ends.bind (fill_ends (fun y => Or.inl (hfilled _)) chunks [] ?_)
  exact commit_ends (by simp [h.content]) (by simp) (by simp [h.no_old])

/-! ## Crashes and restarts -/

/-- What the users of the file see: a write that begins, a write that is over, and what a
construction finds. -/
inductive Event (α : Type) where
  | began (c : List α)
  | ended
  | found (present : Bool) (content : Option (List α))
deriving DecidableEq

/-- Whether there is an `AtomicFile`, and what it is in the middle of. -/
inductive Process (α : Type) where
  | down
  | constructing (p : Program Path α Bool)
  | idle
  | writing (p : Program Path α Unit)

structure System (α : Type) where
  disk : Disk Path α
  process : Process α
  log : List (Event α)

/-- The disk with this content, or none, before the first construction. -/
def start (path : Path) (x : Option (List α)) : System α :=
  ⟨Function.update (fun _ => none) path x, .down, []⟩

inductive Step (α : Type) where
  | construct
  | write (chunks : List (List α))
  | go
  | crash

/-- `go` is one action of the program that runs, or its end. A program that throws leaves no
`AtomicFile`. -/
def step (path : Path) (s : System α) : Step α → Option (System α)
  | .construct =>
    match s.process with
    | .down => some { s with process := .constructing (_tidy path) }
    | _ => none
  | .write chunks =>
    match s.process with
    | .idle => some { s with process := .writing (write path chunks),
                             log := s.log ++ [.began chunks.flatten] }
    | _ => none
  | .go =>
    match s.process with
    | .constructing (.ret e) =>
      some { s with process := .idle, log := s.log ++ [.found e (s.disk path)] }
    | .constructing (.act a k) =>
      match a.run s.disk with
      | some (b, d) => some { s with disk := d, process := .constructing (k b) }
      | none => some { s with process := .down }
    | .writing (.ret _) => some { s with process := .idle, log := s.log ++ [.ended] }
    | .writing (.act a k) =>
      match a.run s.disk with
      | some (b, d) => some { s with disk := d, process := .writing (k b) }
      | none => some { s with process := .down }
    | _ => none
  | .crash => some { s with process := .down }

/-- What is known of the file from outside: its content as of the last write that was over or the
last construction, and the write that was cut since then. -/
structure Known (α : Type) where
  settled : Option (List α)
  pending : Option (List α)

def Known.next (k : Known α) : Event α → Known α
  | .began c => ⟨k.settled, some c⟩
  | .ended => ⟨k.pending, none⟩
  | .found _ x => ⟨x, none⟩

def known (x : Option (List α)) (log : List (Event α)) : Known α :=
  log.foldl Known.next ⟨x, none⟩

/-- A construction may find the last content that was settled, or that of the write that was
being committed. -/
def Known.Allows (k : Known α) (x : Option (List α)) : Prop :=
  x = k.settled ∨ ∃ c, k.pending = some c ∧ x = some c

@[simp] theorem known_snoc (x : Option (List α)) (log : List (Event α)) (e : Event α) :
    known x (log ++ [e]) = (known x log).next e := by
  simp [known]

/-- What the disk is worth in each process. -/
inductive Process.Sound (path : Path) (k : Known α) (d : Disk Path α) : Process α → Prop
  | down (h : k.Allows (recovered path d)) : Sound path k d .down
  | constructing {x : Option (List α)} {p : Program Path α Bool} (hx : k.Allows x)
      (h : Ends (fun e d' => e = x.isSome ∧ Clean path x d') (fun d' => recovered path d' = x)
        p d) : Sound path k d (.constructing p)
  | idle (hp : k.pending = none) (h : Clean path k.settled d) : Sound path k d .idle
  | writing {c : List α} {p : Program Path α Unit} (hp : k.pending = some c)
      (h : Ends (fun _ => Clean path (some c))
        (fun d' => recovered path d' = k.settled ∨ recovered path d' = some c) p d) :
      Sound path k d (.writing p)

/-- Each construction so far found what it may find. -/
def Faithful (x : Option (List α)) (log : List (Event α)) : Prop :=
  ∀ done e y, done ++ [.found e y] <+: log → e = y.isSome ∧ (known x done).Allows y

structure Sound (path : Path) (x : Option (List α)) (s : System α) : Prop where
  process : s.process.Sound path (known x s.log) s.disk
  faithful : Faithful x s.log

theorem Faithful.snoc {x : Option (List α)} {log : List (Event α)} {e : Event α}
    (h : Faithful x log)
    (he : ∀ b y, e = .found b y → b = y.isSome ∧ (known x log).Allows y) :
    Faithful x (log ++ [e]) := by
  intro done b y hp
  rcases List.prefix_concat_iff.mp hp with heq | hp
  · obtain ⟨rfl, he'⟩ := List.append_inj' heq rfl
    exact he b y (List.singleton_inj.mp he').symm
  · exact h done b y hp

theorem Process.Sound.crash {k : Known α} {p : Process α} (h : p.Sound path k d) :
    k.Allows (recovered path d) := by
  cases h with
  | down h => exact h
  | constructing hx h => exact h.cut ▸ hx
  | idle _ h => exact Or.inl h.recovered_eq
  | writing hp h =>
    rcases h.cut with heq | heq
    · exact Or.inl heq
    · exact Or.inr ⟨_, hp, heq⟩

theorem Sound.start (path : Path) (x : Option (List α)) : Sound path x (start path x) := by
  refine ⟨.down (Or.inl ?_), fun done e y hp => ?_⟩
  · exact Clean.recovered_eq ⟨by simp [AtomicFile.start, known], by simp [AtomicFile.start],
      by simp [AtomicFile.start]⟩
  · simp [AtomicFile.start] at hp

theorem Sound.step {x : Option (List α)} {s s' : System α} {a : Step α} (h : Sound path x s)
    (hs : step path s a = some s') : Sound path x s' := by
  obtain ⟨hp, hf⟩ := h
  obtain ⟨disk, process, log⟩ := s
  cases a with
  | crash =>
    obtain rfl := Option.some.inj hs
    exact ⟨.down hp.crash, hf⟩
  | construct =>
    cases hp with
    | down hx =>
      obtain rfl := Option.some.inj hs
      exact ⟨.constructing hx (tidy_ends rfl), hf⟩
    | _ => cases hs
  | write chunks =>
    cases hp with
    | idle hpend hc =>
      obtain rfl := Option.some.inj hs
      refine ⟨?_, hf.snoc fun b y he => by cases he⟩
      simp only [known_snoc]
      exact .writing rfl (write_ends hc chunks)
    | _ => cases hs
  | go =>
    cases hp with
    | down => cases hs
    | idle => cases hs
    | @constructing y p hy hends =>
      cases p with
      | ret e =>
        obtain rfl := Option.some.inj hs
        obtain ⟨-, he, hc⟩ := hends
        refine ⟨?_, hf.snoc fun b z heq => ?_⟩
        · simp only [known_snoc]
          exact .idle rfl ⟨rfl, hc.no_new, hc.no_old⟩
        · cases heq
          rw [hc.content]
          exact ⟨he, hy⟩
      | act a k =>
        obtain ⟨-, b, d, hrun, hk⟩ := hends
        simp only [AtomicFile.step, hrun] at hs
        obtain rfl := Option.some.inj hs
        exact ⟨.constructing hy hk, hf⟩
    | @writing c p hc hends =>
      cases p with
      | ret _ =>
        obtain rfl := Option.some.inj hs
        refine ⟨?_, hf.snoc fun b z heq => by cases heq⟩
        simp only [known_snoc]
        exact .idle rfl (by simpa [Known.next, hc] using hends.2)
      | act a k =>
        obtain ⟨-, b, d, hrun, hk⟩ := hends
        simp only [AtomicFile.step, hrun] at hs
        obtain rfl := Option.some.inj hs
        exact ⟨.writing hc hk, hf⟩

/-- With crashes at any point of the writes and of the recoveries, each construction finds the
last settled content or the one that was being committed, and leaves the file alone. -/
theorem constructions_find_committed {x : Option (List α)} {as : List (Step α)} {s : System α}
    (h : Run (step path) anyStep (AtomicFile.start path x) as s) :
    Faithful x s.log ∧ (s.process = .idle →
      Clean path (known x s.log).settled s.disk ∧ (known x s.log).pending = none) := by
  have hsound : Sound path x s := h.invariant (Sound.start path x) fun _ _ _ hi _ hs => hi.step hs
  refine ⟨hsound.faithful, fun hidle => ?_⟩
  have hp := hsound.process
  rw [hidle] at hp
  cases hp with
  | idle hpend hc => exact ⟨hc, hpend⟩

/-- A first write, then a second one that is cut between its two renames, and a recovery that is
cut before it removes the new file. -/
def cutWrite : List (Step Nat) :=
  [.construct, .go, .go, .go, .go, .write [[1], [2]], .go, .go, .go, .go, .go, .go,
    .write [[3], [4]], .go, .go, .go, .go, .go, .crash, .construct, .go, .go, .go, .crash,
    .construct, .go, .go, .go, .go, .go]

theorem cut_write_is_undone :
    ∃ s, Run (step ⟨[], "b"⟩) anyStep (AtomicFile.start ⟨[], "b"⟩ none) cutWrite s ∧
      s.log = [.found false none, .began [1, 2], .ended, .began [3, 4],
        .found true (some [1, 2])] ∧ Faithful none s.log := by
  have hexec : (exec (step ⟨[], "b"⟩) anyStep (AtomicFile.start ⟨[], "b"⟩ none) cutWrite).map
      System.log = some [.found false none, .began [1, 2], .ended, .began [3, 4],
        .found true (some [1, 2])] := by decide +kernel
  obtain ⟨s, hrun, hlog⟩ := Run.of_exec_map hexec
  exact ⟨s, hrun, hlog, (constructions_find_committed hrun).1⟩

end AtomicFile

end elle
