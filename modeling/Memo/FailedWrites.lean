-- `AtomicFile` as an object, and its wards: `elle::With` destroys the write whether the action
-- returned or threw, and the destructor commits in both cases.
import Memo.AtomicFile
import Memo.Ops

open disk disk.Program ops

namespace elle

variable {S F R : Type}

/-- `With::_run`. When both the action and the destructor throw, the exception of the destructor
is the one that is left. -/
def With._run (action : Op S F R) (destroy_it : Op S F Unit) : Op S F R := do
  let res ← Op.tryCatch action fun e => do
    destroy_it
    Op.throw e
  destroy_it
  return res

theorem With.run_ok {action : Op S F R} {destroy_it : Op S F Unit} {s s' s'' : S} {res : R}
    (ha : action s = (.ok res, s')) (hd : destroy_it s' = (.ok (), s'')) :
    With._run action destroy_it s = (.ok res, s'') := by
  unfold With._run
  rw [Op.bind_of_ok (Op.tryCatch_of_ok ha), Op.bind_of_ok hd]
  rfl

theorem With.run_error {action : Op S F R} {destroy_it : Op S F Unit} {s s' s'' : S} {e : F}
    (ha : action s = (.error e, s')) (hd : destroy_it s' = (.ok (), s'')) :
    With._run action destroy_it s = (.error e, s'') := by
  unfold With._run
  refine Op.bind_of_error ((Op.tryCatch_of_error ha).trans ?_)
  rw [Op.bind_of_ok hd]
  rfl

/-- The object, and the disk that its file is on. -/
structure AtomicFile (α : Type) where
  _exists : Bool
  _reading : Bool
  _writing : Bool
  disk : Disk Path α

namespace AtomicFile

variable {α E : Type} {path : Path} {d : Disk Path α} {f : AtomicFile α} {x : Option (List α)}

/-- A failed assertion, a failed call of the file system, or what an action throws. -/
inductive Failure (E : Type) where
  | assert (condition : String)
  | filesystem
  | thrown (e : E)
deriving DecidableEq

/-- What a file answers. -/
abbrev Call (α E R : Type) : Type := Op (AtomicFile α) (Failure E) R

def assert (condition : String) (b : Bool) : Call α E Unit :=
  if b then Op.pure () else Op.throw (.assert condition)

/-- A program on the disk of the file. -/
def perform : Program Path α R → Call α E R
  | .ret r => Op.pure r
  | .act a k => fun f =>
    match a.run f.disk with
    | some (b, d) => perform (k b) { f with disk := d }
    | none => (.error .filesystem, f)

/-- The constructor. -/
def construct (path : Path) (d : Disk Path α) : AtomicFile α :=
  match (perform (_tidy path) : Call α Unit Bool) ⟨false, false, false, d⟩ with
  | (.ok present, f) => { f with _exists := present }
  | (.error _, f) => f

/-! ## The wards -/

/-- `~Read`. -/
def close_read : Call α E Unit := Op.modify fun f => { f with _reading := false }

/-- `read() << action`, with an action that reads the whole stream. -/
def read_with (path : Path) : Call α E (List α) := do
  let f ← Op.get
  assert "this->exists()" f._exists
  assert "!this->reading()" !f._reading
  assert "!this->writing()" !f._writing
  Op.modify fun f => { f with _reading := true }
  With._run (return (f.disk path).getD []) close_read

/-- `~Write`. -/
def close_write (path : Path) : Call α E Unit := do
  Op.modify fun f => { f with _writing := false }
  perform (_commit path)
  Op.modify fun f => { f with _exists := true }

/-- What an action writes to the stream, and how it ends. -/
structure Writer (α E R : Type) where
  chunks : List (List α)
  result : Except E R

def Writer.run (path : Path) (w : Writer α E R) : Call α E R := do
  perform (fill (_path_new path) w.chunks)
  Op.ofExcept (w.result.mapError .thrown)

/-- `write() << action`. -/
def write_with (path : Path) (w : Writer α E R) : Call α E R := do
  let f ← Op.get
  assert "!this->reading()" !f._reading
  assert "!this->writing()" !f._writing
  perform (create (_path_new path))
  Op.modify fun f => { f with _writing := true }
  With._run (w.run path) (close_write path)

/-- A use of the file from its construction on. -/
inductive Use (α E : Type) where
  | read
  | write (w : Writer α E Unit)

/-- The file after a use, whether it failed or not. -/
def after (path : Path) (f : AtomicFile α) : Use α E → AtomicFile α
  | .read => ((read_with path : Call α E (List α)) f).2
  | .write w => (write_with path w f).2

/-! ## What they do -/

theorem perform_ends {Q : R → Disk Path α → Prop} {I : Disk Path α → Prop} {p : Program Path α R}
    (h : Ends Q I p f.disk) :
    ∃ r d, (perform p : Call α E R) f = (.ok r, { f with disk := d }) ∧ Q r d := by
  induction p generalizing f with
  | ret r => exact ⟨r, f.disk, rfl, h.2⟩
  | act a k ih =>
    obtain ⟨-, b, d, hrun, hk⟩ := h
    obtain ⟨r, d', hp, hQ⟩ := ih b (f := { f with disk := d }) hk
    refine ⟨r, d', ?_, hQ⟩
    simp only [perform, hrun]
    exact hp

/-- No ward is open, and the object knows what is on the disk. -/
structure Idle (path : Path) (x : Option (List α)) (f : AtomicFile α) : Prop where
  existence : f._exists = x.isSome
  reading : f._reading = false
  writing : f._writing = false
  clean : Clean path x f.disk

theorem construct_idle (path : Path) (d : Disk Path α) :
    Idle path (recovered path d) (construct path d) := by
  obtain ⟨present, d', hp, he, hc⟩ :=
    perform_ends (E := Unit) (f := ⟨false, false, false, d⟩) (tidy_ends (d := d) rfl)
  unfold construct
  rw [hp]
  exact ⟨he, rfl, rfl, hc⟩

theorem read_some {c : List α} (h : Idle path (some c) f) :
    (read_with path : Call α E (List α)) f = (.ok c, f) := by
  obtain ⟨_exists, _reading, _writing, d⟩ := f
  obtain ⟨rfl, rfl, rfl, hc⟩ := h
  have hcontent : d path = some c := hc.content
  unfold read_with
  simp only [Op.bind_of_ok (Op.get_apply _)]
  refine (With.run_ok rfl rfl).trans ?_
  rw [hcontent]
  rfl

theorem read_none (h : Idle path none f) :
    (read_with path : Call α E (List α)) f = (.error (.assert "this->exists()"), f) := by
  obtain ⟨_exists, _reading, _writing, d⟩ := f
  obtain ⟨rfl, rfl, rfl, hc⟩ := h
  rfl

theorem read_idle (h : Idle path x f) : ((read_with path : Call α E (List α)) f).2 = f := by
  cases x with
  | some c => rw [read_some h]
  | none => rw [read_none h]

theorem write_commits (h : Idle path x f) (w : Writer α E R) :
    ∃ f', write_with path w f = (w.result.mapError .thrown, f') ∧
      Idle path (some w.chunks.flatten) f' := by
  obtain ⟨_exists, _reading, _writing, d⟩ := f
  obtain ⟨rfl, rfl, rfl, hcontent, -, hold⟩ := h
  dsimp only at hcontent hold
  let created := Function.update d (_path_new path) (some [])
  let filled := Function.update d (_path_new path) (some w.chunks.flatten)
  -- the opening of the stream, what the action writes, and the destructor
  have hopen : (perform (create (_path_new path)) : Call α E Unit) ⟨x.isSome, false, false, d⟩ =
      (.ok (), ⟨x.isSome, false, false, created⟩) := rfl
  have hfill : w.run path ⟨x.isSome, false, true, created⟩ =
      (w.result.mapError .thrown, ⟨x.isSome, false, true, filled⟩) := by
    have hends : Ends (fun _ d => d = filled) (fun _ => True)
        (fill (_path_new path) w.chunks) created :=
      fill_ends (fun _ => trivial) w.chunks [] rfl
    obtain ⟨_, d', hp, hd⟩ :=
      perform_ends (E := E) (f := ⟨x.isSome, false, true, created⟩) hends
    rw [hd] at hp
    unfold Writer.run
    rw [Op.bind_of_ok hp]
    cases w.result <;> rfl
  have hends : Ends (fun _ => Clean path (some w.chunks.flatten))
      (fun d' => recovered path d' = x ∨ recovered path d' = some w.chunks.flatten)
      (_commit path) filled :=
    commit_ends (by simp [filled, hcontent]) (by simp [filled]) (by simp [filled, hold])
  obtain ⟨_, d', hp, hclean⟩ :=
    perform_ends (E := E) (f := ⟨x.isSome, false, false, filled⟩) hends
  have hclose : (close_write path : Call α E Unit) ⟨x.isSome, false, true, filled⟩ =
      (.ok (), ⟨true, false, false, d'⟩) := by
    unfold close_write
    rw [Op.bind_of_ok (Op.modify_apply _ _), Op.bind_of_ok hp]
    rfl
  refine ⟨⟨true, false, false, d'⟩, ?_, rfl, rfl, rfl, hclean⟩
  have hwrite : write_with path w ⟨x.isSome, false, false, d⟩ =
      With._run (w.run path) (close_write path) ⟨x.isSome, false, true, created⟩ := by
    unfold write_with
    simp only [Op.bind_of_ok (Op.get_apply _)]
    rfl
  rw [hwrite]
  cases hr : w.result with
  | ok r =>
    rw [hr] at hfill
    exact With.run_ok hfill hclose
  | error e =>
    rw [hr] at hfill
    exact With.run_error hfill hclose

theorem after_idle (h : Idle path x f) (u : Use α E) : ∃ x', Idle path x' (after path f u) := by
  cases u with
  | read =>
    refine ⟨x, ?_⟩
    simp only [after, read_idle h]
    exact h
  | write w =>
    obtain ⟨f', hw, hidle⟩ := write_commits h w
    refine ⟨some w.chunks.flatten, ?_⟩
    simp only [after, hw]
    exact hidle

theorem uses_idle (path : Path) (d : Disk Path α) (us : List (Use α E)) :
    ∃ x, Idle path x (us.foldl (after path) (construct path d)) := by
  induction us using List.reverseRecOn with
  | nil => exact ⟨_, construct_idle path d⟩
  | append_singleton us u ih =>
    obtain ⟨x, hx⟩ := ih
    rw [List.foldl_append]
    exact after_idle hx u

/-! ## Writes that fail -/

/-- A write that threw `e` left the file as it was, and it can be read and written again. -/
structure Undone (path : Path) (f : AtomicFile α) (e : E)
    (r : Except (Failure E) R × AtomicFile α) : Prop where
  left : r.1 = .error (.thrown e)
  content : r.2.disk path = f.disk path
  existence : r.2._exists = f._exists
  read : ((read_with path : Call α E (List α)) r.2).1 =
    ((read_with path : Call α E (List α)) f).1
  written : ∀ chunks, let r' := write_with path (⟨chunks, .ok ()⟩ : Writer α E Unit) r.2
    r'.1 = .ok () ∧ r'.2.disk path = some chunks.flatten

/-- From its construction on, whatever was read and written before: a write that fails is undone
if and only if it wrote what the file had. -/
theorem failed_write_is_undone_iff (path : Path) (d : Disk Path α) (us : List (Use α E))
    (chunks : List (List α)) (e : E) :
    let f := us.foldl (after path) (construct path d)
    Undone path f e (write_with path (⟨chunks, .error e⟩ : Writer α E R) f) ↔
      f.disk path = some chunks.flatten := by
  intro f
  obtain ⟨x, hx⟩ := uses_idle path d us
  obtain ⟨f', hw, hidle⟩ := write_commits hx (⟨chunks, .error e⟩ : Writer α E R)
  rw [hw]
  constructor
  · intro h
    rw [← h.content]
    exact hidle.clean.content
  · intro hcontent
    obtain rfl : x = some chunks.flatten := hx.clean.content.symm.trans hcontent
    refine ⟨rfl, hidle.clean.content.trans hcontent.symm, hidle.existence.trans hx.existence.symm,
      ?_, fun chunks' => ?_⟩
    · rw [read_some hidle, read_some hx]
    · obtain ⟨f'', hw', hidle'⟩ := write_commits hidle (⟨chunks', .ok ()⟩ : Writer α E Unit)
      rw [hw']
      exact ⟨rfl, hidle'.clean.content⟩

/-- The file has `[1]`, an action writes `[2]` and throws: the file has `[2]`. -/
theorem a_failed_write_is_committed :
    ¬ Undone (R := Unit) ⟨[], "b"⟩
      (construct ⟨[], "b"⟩ (Function.update (fun _ => none) ⟨[], "b"⟩ (some [1]))) ()
      (write_with ⟨[], "b"⟩ ⟨[[2]], .error ()⟩
        (construct ⟨[], "b"⟩ (Function.update (fun _ => none) ⟨[], "b"⟩ (some [1])))) := by
  intro h
  have hcontent := h.content
  revert hcontent
  decide +kernel

end AtomicFile

end elle
