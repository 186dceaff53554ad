-- Edits of a block that a store decides one version after another. Who edits changes a block at
-- hand, which may be old, and offers it. Where the store has decided another block, the edit is
-- replayed on that one and offered again, unless the two blocks compare equal.
import Mathlib.Data.List.Nodup
import Mathlib.Data.List.Perm.Basic
import Mathlib.Order.Lattice
import Memo.Ops
import Memo.Runs

namespace replays

open ops runs

variable {N E X B F C : Type}

/-- An edit, who does it, and what it draws. -/
structure Attempt (N E X : Type) where
  node : N
  edit : E
  drawn : X

/-- How blocks are edited: at hand, and anew on a block that was decided. `view` is what a node
gets of a decided block, `same` compares it with the block that the node offers. -/
structure Editing (N E X B F : Type) where
  version : B → Int
  view : N → B → B
  same : B → B → Bool
  edit : Attempt N E X → Op B F Unit
  replay : Attempt N E X → B → Except F B

/-- A block that was decided, with the edits that were answered with it: the one whose block it
is, and those that found it to be the same as theirs. -/
structure Decided (N E X B : Type) where
  block : B
  edits : List (Nat × Attempt N E X)

/-- An edit that was issued and has no answer, with the block that it offers. -/
structure Working (N E X B : Type) where
  id : Nat
  attempt : Attempt N E X
  block : B

/-- The decided blocks, oldest first, and all the edits. An edit is known by its rank. `hands` are
the blocks at hand, each with its node. -/
structure State (N E X B : Type) where
  decided : List (Decided N E X B)
  hands : List (N × B)
  working : List (Working N E X B)
  issued : List (N × E)
  succeeded : List Nat
  failed : List Nat

/-- What happens: a node fetches a decided block, an edit is issued on a block at hand, an edit
offers its block, an edit is refused. The store may leave out its answer when it decides. -/
inductive Act (N E X : Type) where
  | fetch (node : N) (rank : Nat)
  | issue (hand : Nat) (edit : E) (drawn : X)
  | offer (i rank : Nat) (drawn : X) (answered : Bool)
  | refuse (i : Nat)

def Decided.ids (d : Decided N E X B) : List Nat := d.edits.map Prod.fst

/-- The edits that were decided, in order. -/
def log (decided : List (Decided N E X B)) : List (Nat × Attempt N E X) :=
  decided.flatMap (·.edits)

def ids (s : State N E X B) : List Nat := (log s.decided).map Prod.fst

/-- The edit is answered with a block that is not its own, unless it is. -/
def Decided.join (d : Decided N E X B) (w : Working N E X B) : Decided N E X B :=
  if w.id ∈ d.ids then d else { d with edits := d.edits ++ [(w.id, w.attempt)] }

variable (ed : Editing N E X B F)

/-- An edit is issued: it changes the block at hand, also when it fails. -/
def issue (s : State N E X B) (hand : Nat) (p : N × B) (edit : E) (drawn : X) :
    State N E X B :=
  let attempt : Attempt N E X := ⟨p.1, edit, drawn⟩
  match ed.edit attempt p.2 with
  | (.ok (), b) =>
    { s with hands := s.hands.set hand (p.1, b)
             working := s.working ++ [⟨s.issued.length, attempt, b⟩]
             issued := s.issued ++ [(p.1, edit)] }
  | (.error _, b) =>
    { s with hands := s.hands.set hand (p.1, b)
             issued := s.issued ++ [(p.1, edit)]
             failed := s.failed ++ [s.issued.length] }

/-- The store decides the block that an edit offers. -/
def settle (s : State N E X B) (i : Nat) (w : Working N E X B) (answered : Bool) :
    State N E X B :=
  let decided := s.decided ++ [⟨w.block, [(w.id, w.attempt)]⟩]
  if answered then
    { s with decided, working := s.working.eraseIdx i, succeeded := s.succeeded ++ [w.id] }
  else { s with decided }

/-- The store has decided another block than the one that is offered, or that very one. -/
def conflict (s : State N E X B) (i rank : Nat) (w : Working N E X B) (d : Decided N E X B)
    (drawn : X) : State N E X B :=
  let newest := ed.view w.attempt.node d.block
  if ed.same newest w.block then
    { s with decided := s.decided.set rank (d.join w)
             working := s.working.eraseIdx i
             succeeded := s.succeeded ++ [w.id] }
  else
    let attempt := { w.attempt with drawn }
    match ed.replay attempt newest with
    | .ok b => { s with working := s.working.set i ⟨w.id, attempt, b⟩ }
    | .error _ => { s with working := s.working.eraseIdx i, failed := s.failed ++ [w.id] }

/-- One block is decided for each version. A block that is offered too late is answered with one
of its version, or with a newer one. -/
def step (s : State N E X B) : Act N E X → Option (State N E X B)
  | .fetch node rank => s.decided[rank]?.map fun d =>
      { s with hands := s.hands ++ [(node, ed.view node d.block)] }
  | .issue hand edit drawn => s.hands[hand]?.map fun p => issue ed s hand p edit drawn
  | .offer i rank drawn answered =>
    match s.working[i]?, s.decided.getLast? with
    | some w, some last =>
      if ed.version last.block < ed.version w.block then some (settle s i w answered)
      else
        match s.decided[rank]? with
        | some d =>
          if ed.version w.block ≤ ed.version d.block then some (conflict ed s i rank w d drawn)
          else none
        | none => none
    | _, _ => none
  | .refuse i =>
    match s.working[i]? with
    | some w =>
      if w.id ∈ ids s then none
      else some { s with working := s.working.eraseIdx i, failed := s.failed ++ [w.id] }
    | none => none

/-- A store that decided one block. -/
def start (b : B) : State N E X B := ⟨[⟨b, []⟩], [], [], [], [], []⟩

/-! ## What is asked of the edits, and of the steps -/

/-- An edit of a sound block makes a sound one, with what it does to the content, and its version
is the next one at most. So is the version of an edit of a block that is merely fit, as all blocks
at hand are. -/
structure Editing.Lawful (content : B → C) (Sound Fit : B → Prop)
    (apply : Attempt N E X → C → C) : Prop where
  view : ∀ n b, Sound b → Fit (ed.view n b)
  edit_fit : ∀ a b, Fit b → Fit (ed.edit a b).2
  edit_version : ∀ a b b', Fit b → ed.edit a b = (.ok (), b') → ed.version b' ≤ ed.version b + 1
  edit : ∀ a b b', Sound b → ed.edit a b = (.ok (), b') →
    Sound b' ∧ content b' = apply a (content b)
  replay : ∀ a b b', Sound b → ed.replay a (ed.view a.node b) = .ok b' →
    Sound b' ∧ content b' = apply a (content b) ∧ ed.version b' ≤ ed.version b + 1

variable (content : B → C) (Sound Fit : B → Prop) (apply : Attempt N E X → C → C)

/-- A block at hand is older than the last one that was decided, or says the same. -/
def UpToDate (last b : B) : Prop :=
  ed.version b < ed.version last ∨
    ed.version b = ed.version last ∧ content b = content last ∧ Sound b

/-- Who is answered with its own block sees that it is, and who takes another one for its own has
nothing to change there. -/
def Told (s : State N E X B) (w : Working N E X B) (d : Decided N E X B) : Prop :=
  let same := ed.same (ed.view w.attempt.node d.block) w.block
  (w.id ∈ ids s → w.id ∈ d.ids ∧ same = true) ∧
    (w.id ∉ ids s → same = true → apply w.attempt (content d.block) = content d.block)

def Meets (s : State N E X B) : Act N E X → Prop
  | .issue hand _ _ => ∀ last ∈ s.decided.getLast?, ∀ p ∈ s.hands[hand]?,
      UpToDate ed content Sound last.block p.2
  | .offer i rank _ _ => ∀ last ∈ s.decided.getLast?, ∀ w ∈ s.working[i]?, ∀ d ∈ s.decided[rank]?,
      ed.version w.block ≤ ed.version last.block → ed.version w.block ≤ ed.version d.block →
        Told ed content apply s w d
  | _ => True

/-! ## The order of the edits -/

/-- What the edits make of a content, in order. -/
def replayed (edits : List (Nat × Attempt N E X)) (c : C) : C :=
  edits.foldl (fun c e => apply e.2 c) c

/-- Each block has the content of the one before, with its edits. -/
def Chained (c : C) : List (Decided N E X B) → Prop
  | [] => True
  | d :: ds => content d.block = replayed apply d.edits c ∧ Chained (content d.block) ds

/-- What is true of a store and of the edits, all along a run. -/
structure Serial (c : C) (s : State N E X B) : Prop where
  sound : ∀ d ∈ s.decided, Sound d.block
  hands : ∀ p ∈ s.hands, Fit p.2
  newest : ∃ last, s.decided.getLast? = some last ∧
    (∀ d ∈ s.decided, ed.version d.block < ed.version last.block ∨
      ed.version d.block = ed.version last.block ∧ content d.block = content last.block) ∧
    ∀ w ∈ s.working, ed.version w.block ≤ ed.version last.block ∨
      ed.version w.block = ed.version last.block + 1 ∧ w.id ∉ ids s ∧ Sound w.block ∧
        content w.block = apply w.attempt (content last.block)
  chained : Chained content apply c s.decided
  once : (ids s).Nodup
  issued : ∀ e ∈ log s.decided, s.issued[e.1]? = some (e.2.node, e.2.edit)
  asked : ∀ w ∈ s.working, s.issued[w.id]? = some (w.attempt.node, w.attempt.edit)
  all : (s.succeeded ++ s.failed ++ s.working.map (·.id)).Perm (List.range s.issued.length)
  done : ∀ id ∈ s.succeeded, id ∈ ids s
  found : ∀ id ∈ ids s, id ∈ s.succeeded ∨ id ∈ s.working.map (·.id)

variable {ed content Sound Fit apply} {c : C} {s s' : State N E X B}

/-! ### Lists -/

theorem replayed_append (l l' : List (Nat × Attempt N E X)) (c : C) :
    replayed apply (l ++ l') c = replayed apply l' (replayed apply l c) := List.foldl_append

variable {d : Decided N E X B} {w : Working N E X B} {ds : List (Decided N E X B)} {i id rank : Nat}

theorem Chained.snoc {last : Decided N E X B} (h : Chained content apply c ds)
    (hl : ds.getLast? = some last)
    (hd : content d.block = replayed apply d.edits (content last.block)) :
    Chained content apply c (ds ++ [d]) := by
  induction ds generalizing c with
  | nil => cases hl
  | cons a ds ih =>
    refine ⟨h.1, ?_⟩
    cases ds with
    | nil =>
      cases hl
      exact ⟨hd, trivial⟩
    | cons b ds => exact ih h.2 (by rwa [List.getLast?_cons_cons] at hl)

theorem Chained.join {e : Nat × Attempt N E X} (h : Chained content apply c ds)
    (hd : ds[rank]? = some d) (he : apply e.2 (content d.block) = content d.block) :
    Chained content apply c (ds.set rank { d with edits := d.edits ++ [e] }) := by
  induction ds generalizing c rank with
  | nil => cases hd
  | cons a ds ih =>
    cases rank with
    | zero =>
      cases hd
      refine ⟨?_, h.2⟩
      rw [replayed_append, ← h.1]
      exact he.symm
    | succ rank => exact ⟨h.1, ih h.2 hd⟩

theorem Chained.replayed {k : Nat} (h : Chained content apply c ds) (hd : ds[k]? = some d) :
    content d.block = replayed apply (log (ds.take (k + 1))) c := by
  induction ds generalizing c k with
  | nil => cases hd
  | cons a ds ih =>
    cases k with
    | zero =>
      cases hd
      simpa [log] using h.1
    | succ k =>
      rw [ih h.2 hd, h.1, ← replayed_append]
      rfl

theorem log_append (ds : List (Decided N E X B)) (d : Decided N E X B) :
    log (ds ++ [d]) = log ds ++ d.edits := by simp [log]

theorem log_join {e : Nat × Attempt N E X} (hd : ds[rank]? = some d) :
    (log (ds.set rank { d with edits := d.edits ++ [e] })).Perm (log ds ++ [e]) := by
  induction ds generalizing rank with
  | nil => cases hd
  | cons a ds ih =>
    cases rank with
    | zero =>
      cases hd
      simp only [log, List.set_cons_zero, List.flatMap_cons, List.append_assoc]
      exact List.Perm.append_left _ List.perm_append_comm
    | succ rank =>
      simp only [log, List.set_cons_succ, List.flatMap_cons, List.append_assoc]
      exact List.Perm.append_left _ (ih hd)

theorem mem_ids (hd : d ∈ s.decided) (h : id ∈ d.ids) :
    id ∈ ids s := by
  obtain ⟨e, he, rfl⟩ := List.mem_map.mp h
  exact List.mem_map_of_mem (List.mem_flatMap.mpr ⟨d, hd, he⟩)

theorem worked {l : List (Working N E X B)} (hw : l[i]? = some w) :
    (l.map (·.id)).Perm (w.id :: (l.eraseIdx i).map (·.id)) := by
  obtain ⟨hi, rfl⟩ := List.getElem?_eq_some_iff.mp hw
  exact ((List.getElem_cons_eraseIdx_perm hi).map (·.id)).symm

theorem still_working {l : List (Working N E X B)} {w' : Working N E X B} (hw : l[i]? = some w)
    (hid : w'.id = w.id) :
    (l.set i w').map (·.id) = l.map (·.id) := by
  obtain ⟨hi, rfl⟩ := List.getElem?_eq_some_iff.mp hw
  rw [List.map_set, hid]
  apply List.ext_getElem (by simp)
  intro j _ _
  rw [List.getElem_set]
  split
  · subst_vars
    simp
  · rfl

/-! ### One step -/

theorem Serial.fetch (hl : ed.Lawful content Sound Fit apply) {node : N}
    (h : Serial ed content Sound Fit apply c s) (hd : d ∈ s.decided) :
    Serial ed content Sound Fit apply c
      { s with hands := s.hands ++ [(node, ed.view node d.block)] } := by
  refine { h with hands := ?_ }
  intro p hp
  rcases List.mem_append.mp hp with hp | hp
  · exact h.hands p hp
  · rw [List.mem_singleton.mp hp]
    exact hl.view node d.block (h.sound d hd)

theorem issued_next {l : List (N × E)} {p : N × E} {q : N × E} (h : l[id]? = some q) :
    (l ++ [p])[id]? = some q := by
  rw [List.getElem?_append_left (List.getElem?_eq_some_iff.mp h).1, h]

theorem Serial.lt_issued (h : Serial ed content Sound Fit apply c s) (hid : id ∈ ids s) :
    id < s.issued.length := by
  obtain ⟨e, he, rfl⟩ := List.mem_map.mp hid
  exact (List.getElem?_eq_some_iff.mp (h.issued e he)).1

theorem Serial.issue (hl : ed.Lawful content Sound Fit apply) {hand : Nat} {p : N × B} {edit : E}
    {drawn : X} (h : Serial ed content Sound Fit apply c s) (hhand : s.hands[hand]? = some p)
    (hp : ∀ last ∈ s.decided.getLast?, UpToDate ed content Sound last.block p.2) :
    Serial ed content Sound Fit apply c (issue ed s hand p edit drawn) := by
  obtain ⟨last, hlast, hmax, hworking⟩ := h.newest
  have hasked : ∀ w ∈ s.working,
      (s.issued ++ [(p.1, edit)])[w.id]? = some (w.attempt.node, w.attempt.edit) :=
    fun w hw => issued_next (h.asked w hw)
  have hissued : ∀ e ∈ log s.decided,
      (s.issued ++ [(p.1, edit)])[e.1]? = some (e.2.node, e.2.edit) :=
    fun e he => issued_next (h.issued e he)
  have hcount := fun a => List.perm_iff_count.mp h.all a
  have hfit := h.hands p (List.mem_of_getElem? hhand)
  have hhands : ∀ b, Fit b → ∀ q ∈ s.hands.set hand (p.1, b), Fit q.2 := by
    intro b hb q hq
    rcases List.mem_or_eq_of_mem_set hq with hq | rfl
    · exact h.hands q hq
    · exact hb
  have hafter := hl.edit_fit ⟨p.1, edit, drawn⟩ p.2 hfit
  unfold replays.issue
  dsimp only
  split
  next b hb =>
    rw [hb] at hafter
    refine ⟨h.sound, hhands b hafter, ⟨last, hlast, hmax, ?_⟩, h.chained, h.once, hissued, ?_, ?_,
      h.done, ?_⟩
    · intro w hw
      rcases List.mem_append.mp hw with hw | hw
      · exact hworking w hw
      · cases List.mem_singleton.mp hw
        have hversion := hl.edit_version _ _ _ hfit hb
        rcases hp last hlast with hold | ⟨hv, hcontent, hsound⟩
        · left
          dsimp only
          omega
        · obtain ⟨hsound', hcontent'⟩ := hl.edit _ _ _ hsound hb
          rcases lt_or_ge (ed.version last.block) (ed.version b) with hlt | hge
          · right
            refine ⟨?_, fun hmem => absurd (h.lt_issued hmem) (lt_irrefl _), hsound', ?_⟩
            · dsimp only
              omega
            · rw [hcontent', hcontent]
          · exact Or.inl hge
    · intro w hw
      rcases List.mem_append.mp hw with hw | hw
      · exact hasked w hw
      · cases List.mem_singleton.mp hw
        simp
    · apply List.perm_iff_count.mpr
      intro a
      have ha := hcount a
      simp only [List.count_append, List.map_append, List.map_cons, List.map_nil,
        List.length_append, List.length_singleton, List.range_succ] at ha ⊢
      omega
    · intro id hid
      rw [List.map_append]
      exact (h.found id hid).imp_right (List.mem_append_left _)
  next e b hb =>
    rw [hb] at hafter
    refine ⟨h.sound, hhands b hafter, ⟨last, hlast, hmax, hworking⟩, h.chained, h.once, hissued,
      hasked, ?_, h.done, h.found⟩
    apply List.perm_iff_count.mpr
    intro a
    have ha := hcount a
    simp only [List.count_append, List.length_append, List.length_singleton,
      List.range_succ] at ha ⊢
    omega

theorem Serial.left (h : Serial ed content Sound Fit apply c s) (hw : s.working[i]? = some w)
    (a : Nat) :
    (s.succeeded.count a + s.failed.count a) + ([w.id].count a +
      ((s.working.eraseIdx i).map (·.id)).count a) = (List.range s.issued.length).count a := by
  have ha := List.perm_iff_count.mp h.all a
  have hc := List.perm_iff_count.mp (worked hw) a
  rw [List.count_append, List.count_append, hc, List.count_cons] at ha
  rw [List.count_singleton]
  omega

theorem Serial.settle (h : Serial ed content Sound Fit apply c s) {last : Decided N E X B}
    {answered : Bool} (hw : s.working[i]? = some w) (hlast : s.decided.getLast? = some last)
    (hnew : ed.version last.block < ed.version w.block) :
    Serial ed content Sound Fit apply c (settle s i w answered) := by
  obtain ⟨last', hlast', hmax, hworking⟩ := h.newest
  cases hlast'.symm.trans hlast
  have hmem := List.mem_of_getElem? hw
  obtain ⟨hversion, hid, hsound, hcontent⟩ := (hworking w hmem).resolve_left (by omega)
  have hids : (log (s.decided ++ [⟨w.block, [(w.id, w.attempt)]⟩])).map Prod.fst =
      ids s ++ [w.id] := by simp [log_append, ids]
  -- what the new block changes, whether or not the edit is answered
  have hsounds : ∀ d ∈ s.decided ++ [⟨w.block, [(w.id, w.attempt)]⟩], Sound d.block := by
    intro d hd
    rcases List.mem_append.mp hd with hd | hd
    · exact h.sound d hd
    · rw [List.mem_singleton.mp hd]
      exact hsound
  have hmax' : ∀ d ∈ s.decided ++ [⟨w.block, [(w.id, w.attempt)]⟩],
      ed.version d.block < ed.version w.block ∨
        ed.version d.block = ed.version w.block ∧ content d.block = content w.block := by
    intro d hd
    rcases List.mem_append.mp hd with hd | hd
    · have := hmax d hd
      omega
    · rw [List.mem_singleton.mp hd]
      exact Or.inr ⟨rfl, rfl⟩
  have hold : ∀ w' ∈ s.working, ed.version w'.block ≤ ed.version w.block := by
    intro w' hw'
    rcases hworking w' hw' with hle | ⟨heq, -⟩ <;> omega
  have hchained : Chained content apply c (s.decided ++ [⟨w.block, [(w.id, w.attempt)]⟩]) :=
    h.chained.snoc hlast hcontent
  have honce : (ids s ++ [w.id]).Nodup := by
    refine List.nodup_append.mpr ⟨h.once, List.nodup_singleton _, ?_⟩
    intro a ha b hb heq
    rw [heq, List.mem_singleton.mp hb] at ha
    exact hid ha
  have hissued : ∀ e ∈ log (s.decided ++ [⟨w.block, [(w.id, w.attempt)]⟩]),
      s.issued[e.1]? = some (e.2.node, e.2.edit) := by
    intro e he
    rw [log_append] at he
    rcases List.mem_append.mp he with he | he
    · exact h.issued e he
    · cases List.mem_singleton.mp he
      exact h.asked w hmem
  have hfound : ∀ id ∈ ids s ++ [w.id], id ∈ s.succeeded ∨ id ∈ s.working.map (·.id) := by
    intro id hid
    rcases List.mem_append.mp hid with hid | hid
    · exact h.found id hid
    · rw [List.mem_singleton.mp hid]
      exact Or.inr (List.mem_map_of_mem hmem)
  unfold replays.settle
  dsimp only
  split
  · refine ⟨hsounds, h.hands, ⟨_, List.getLast?_concat, hmax', ?_⟩, hchained, ?_, hissued, ?_, ?_,
      ?_, ?_⟩
    · exact fun w' hw' => Or.inl (hold w' (List.mem_of_mem_eraseIdx hw'))
    · rw [ids, hids]
      exact honce
    · exact fun w' hw' => h.asked w' (List.mem_of_mem_eraseIdx hw')
    · apply List.perm_iff_count.mpr
      intro a
      have ha := h.left hw a
      simp only [List.count_append] at ha ⊢
      omega
    · intro id hid
      rw [ids, hids]
      rcases List.mem_append.mp hid with hid | hid
      · exact List.mem_append_left _ (h.done id hid)
      · exact List.mem_append_right _ hid
    · intro id hid
      rw [ids, hids] at hid
      rcases hfound id hid with hdone | hworking
      · exact Or.inl (List.mem_append_left _ hdone)
      · rcases List.mem_cons.mp ((worked hw).mem_iff.mp hworking) with rfl | hworking
        · exact Or.inl (List.mem_append_right _ (List.mem_singleton_self _))
        · exact Or.inr hworking
  · refine ⟨hsounds, h.hands, ⟨_, List.getLast?_concat, hmax', ?_⟩, hchained, ?_, hissued,
      h.asked, h.all, ?_, ?_⟩
    · exact fun w' hw' => Or.inl (hold w' hw')
    · rw [ids, hids]
      exact honce
    · intro id hid
      rw [ids, hids]
      exact List.mem_append_left _ (h.done id hid)
    · intro id hid
      rw [ids, hids] at hid
      exact hfound id hid

theorem Serial.same (h : Serial ed content Sound Fit apply c s) (hw : s.working[i]? = some w)
    (hd : s.decided[rank]? = some d) (htold : Told ed content apply s w d)
    (hsame : ed.same (ed.view w.attempt.node d.block) w.block = true) :
    Serial ed content Sound Fit apply c
      { s with decided := s.decided.set rank (d.join w)
               working := s.working.eraseIdx i
               succeeded := s.succeeded ++ [w.id] } := by
  obtain ⟨last, hlast, hmax, hworking⟩ := h.newest
  have hmem := List.mem_of_getElem? hw
  have hall : (s.succeeded ++ [w.id] ++ s.failed ++ (s.working.eraseIdx i).map (·.id)).Perm
      (List.range s.issued.length) := by
    apply List.perm_iff_count.mpr
    intro a
    have ha := h.left hw a
    simp only [List.count_append] at ha ⊢
    omega
  have hfound : ∀ id, id ∈ s.succeeded ∨ id ∈ s.working.map (·.id) →
      id ∈ s.succeeded ++ [w.id] ∨ id ∈ (s.working.eraseIdx i).map (·.id) := by
    intro id hid
    rcases hid with hdone | hworking
    · exact Or.inl (List.mem_append_left _ hdone)
    · rcases List.mem_cons.mp ((worked hw).mem_iff.mp hworking) with rfl | hworking
      · exact Or.inl (List.mem_append_right _ (List.mem_singleton_self _))
      · exact Or.inr hworking
  have hasked : ∀ w' ∈ s.working.eraseIdx i,
      s.issued[w'.id]? = some (w'.attempt.node, w'.attempt.edit) :=
    fun w' hw' => h.asked w' (List.mem_of_mem_eraseIdx hw')
  have hdmem := List.mem_of_getElem? hd
  by_cases hown : w.id ∈ ids s
  · -- the block is its own: what is decided stays
    have hdecided : s.decided.set rank (d.join w) = s.decided := by
      rw [Decided.join, if_pos (htold.1 hown).1]
      obtain ⟨hi, rfl⟩ := List.getElem?_eq_some_iff.mp hd
      exact List.set_getElem_self hi
    rw [hdecided]
    refine ⟨h.sound, h.hands, ⟨last, hlast, hmax, fun w' hw' => ?_⟩, h.chained, h.once, h.issued,
      hasked, hall, ?_, fun id hid => hfound id (h.found id hid)⟩
    · exact hworking w' (List.mem_of_mem_eraseIdx hw')
    · intro id hid
      rcases List.mem_append.mp hid with hid | hid
      · exact h.done id hid
      · rw [List.mem_singleton.mp hid]
        exact hown
  · have hjoin : d.join w = { d with edits := d.edits ++ [(w.id, w.attempt)] } := by
      rw [Decided.join, if_neg fun hmem => hown (mem_ids hdmem hmem)]
    have hlog := log_join (e := (w.id, w.attempt)) hd
    have hids : (ids { s with decided := s.decided.set rank (d.join w)
                              working := s.working.eraseIdx i
                              succeeded := s.succeeded ++ [w.id] }).Perm (ids s ++ [w.id]) := by
      have hmap := hlog.map Prod.fst
      rw [List.map_append] at hmap
      rw [ids, hjoin]
      exact hmap
    -- the blocks are the same, with one edit more for one of them
    have hblocks : ∀ d' ∈ s.decided.set rank (d.join w), ∃ d₀ ∈ s.decided,
        d'.block = d₀.block := by
      intro d' hd'
      rcases List.mem_or_eq_of_mem_set hd' with hd' | rfl
      · exact ⟨d', hd', rfl⟩
      · rw [hjoin]
        exact ⟨d, hdmem, rfl⟩
    have hnewest : ∃ last', (s.decided.set rank (d.join w)).getLast? = some last' ∧
        last'.block = last.block := by
      rw [List.getLast?_eq_getElem?, List.length_set, List.getElem?_set]
      rw [List.getLast?_eq_getElem?] at hlast
      split
      next heq =>
        rw [← heq, hd] at hlast
        cases hlast
        rw [if_pos (List.getElem?_eq_some_iff.mp hd).1, hjoin]
        exact ⟨_, rfl, rfl⟩
      next => exact ⟨last, hlast, rfl⟩
    obtain ⟨last', hlast', hblock⟩ := hnewest
    refine ⟨?_, h.hands, ⟨last', hlast', ?_, ?_⟩, ?_, ?_, ?_, hasked, hall, ?_, ?_⟩
    · intro d' hd'
      obtain ⟨d₀, hd₀, heq⟩ := hblocks d' hd'
      rw [heq]
      exact h.sound d₀ hd₀
    · intro d' hd'
      obtain ⟨d₀, hd₀, heq⟩ := hblocks d' hd'
      rw [heq, hblock]
      exact hmax d₀ hd₀
    · intro w' hw'
      have hmem' := List.mem_of_mem_eraseIdx hw'
      rw [hblock]
      rcases hworking w' hmem' with hle | ⟨hv, hid, hsound, hcontent⟩
      · exact Or.inl hle
      · refine Or.inr ⟨hv, ?_, hsound, hcontent⟩
        intro hin
        rcases List.mem_append.mp (hids.mem_iff.mp hin) with hin | hin
        · exact hid hin
        · -- no two edits at work have one rank
          have hone := List.nodup_append.mp (hall.nodup_iff.mpr List.nodup_range)
          refine hone.2.2 w.id ?_ w'.id (List.mem_map_of_mem hw') (List.mem_singleton.mp hin).symm
          exact List.mem_append_left _ (List.mem_append_right _ (List.mem_singleton_self _))
    · dsimp only
      rw [hjoin]
      exact h.chained.join hd (htold.2 hown hsame)
    · refine hids.nodup_iff.mpr (List.nodup_append.mpr ⟨h.once, List.nodup_singleton _, ?_⟩)
      intro a ha b hb heq
      rw [heq, List.mem_singleton.mp hb] at ha
      exact hown ha
    · intro e he
      dsimp only at he
      rw [hjoin] at he
      rcases List.mem_append.mp (hlog.mem_iff.mp he) with he | he
      · exact h.issued e he
      · cases List.mem_singleton.mp he
        exact h.asked w hmem
    · intro id hid
      apply hids.mem_iff.mpr
      rcases List.mem_append.mp hid with hid | hid
      · exact List.mem_append_left _ (h.done id hid)
      · exact List.mem_append_right _ hid
    · intro id hid
      rcases List.mem_append.mp (hids.mem_iff.mp hid) with hid | hid
      · exact hfound id (h.found id hid)
      · exact Or.inl (List.mem_append_right _ hid)

theorem Serial.fail (h : Serial ed content Sound Fit apply c s) (hw : s.working[i]? = some w)
    (hid : w.id ∉ ids s) :
    Serial ed content Sound Fit apply c
      { s with working := s.working.eraseIdx i, failed := s.failed ++ [w.id] } := by
  obtain ⟨last, hlast, hmax, hworking⟩ := h.newest
  refine { h with newest := ⟨last, hlast, hmax, ?_⟩, asked := ?_, all := ?_, found := ?_ }
  · exact fun w' hw' => hworking w' (List.mem_of_mem_eraseIdx hw')
  · exact fun w' hw' => h.asked w' (List.mem_of_mem_eraseIdx hw')
  · apply List.perm_iff_count.mpr
    intro a
    have ha := h.left hw a
    simp only [List.count_append] at ha ⊢
    omega
  · intro id hin
    rcases h.found id hin with hdone | hworking
    · exact Or.inl hdone
    · rcases List.mem_cons.mp ((worked hw).mem_iff.mp hworking) with rfl | hworking
      · exact absurd hin hid
      · exact Or.inr hworking

theorem Serial.conflict (hl : ed.Lawful content Sound Fit apply)
    (h : Serial ed content Sound Fit apply c s) {drawn : X} (hw : s.working[i]? = some w)
    (hd : s.decided[rank]? = some d) (htold : Told ed content apply s w d) :
    Serial ed content Sound Fit apply c (conflict ed s i rank w d drawn) := by
  unfold replays.conflict
  dsimp only
  split
  next hsame => exact h.same hw hd htold hsame
  next hsame =>
    -- an edit whose own block was decided is told so: this one has no decided block
    have hid : w.id ∉ ids s := fun hin => hsame (htold.1 hin).2
    split
    next b hb =>
      obtain ⟨last, hlast, hmax, hworking⟩ := h.newest
      have hdmem := List.mem_of_getElem? hd
      obtain ⟨hsound, hcontent, hversion⟩ := hl.replay _ _ _ (h.sound d hdmem) hb
      let w₁ : Working N E X B := ⟨w.id, { w.attempt with drawn }, b⟩
      have hids : (s.working.set i w₁).map (·.id) = s.working.map (·.id) := still_working hw rfl
      refine { h with newest := ⟨last, hlast, hmax, ?_⟩, asked := ?_, all := ?_, found := ?_ }
      · intro w' hw'
        rcases List.mem_or_eq_of_mem_set hw' with hw' | rfl
        · exact hworking w' hw'
        · dsimp only
          rcases hmax d hdmem with hlt | ⟨hv, hsame⟩
          · left
            omega
          · rcases lt_or_ge (ed.version last.block) (ed.version b) with hlt | hge
            · right
              refine ⟨by omega, hid, hsound, ?_⟩
              rw [hcontent, hsame]
            · exact Or.inl hge
      · intro w' hw'
        rcases List.mem_or_eq_of_mem_set hw' with hw' | rfl
        · exact h.asked w' hw'
        · exact h.asked w (List.mem_of_getElem? hw)
      · rw [hids]
        exact h.all
      · intro id hin
        rw [hids]
        exact h.found id hin
    next e he => exact h.fail hw hid

/-! ### A run -/

theorem Serial.start {b : B} (hb : Sound b) :
    Serial ed content Sound Fit apply (content b) (start b : State N E X B) := by
  refine ⟨?_, nofun, ⟨_, rfl, ?_, nofun⟩, ⟨rfl, trivial⟩, List.nodup_nil, nofun, nofun,
    List.Perm.nil, nofun, nofun⟩
  · intro d hd
    rw [List.mem_singleton.mp hd]
    exact hb
  · intro d hd
    rw [List.mem_singleton.mp hd]
    exact Or.inr ⟨rfl, rfl⟩

theorem Serial.step (hl : ed.Lawful content Sound Fit apply) {a : Act N E X}
    (h : Serial ed content Sound Fit apply c s) (hm : Meets ed content Sound apply s a)
    (hs : step ed s a = some s') : Serial ed content Sound Fit apply c s' := by
  cases a with
  | fetch node rank =>
    obtain ⟨d, hd, rfl⟩ := Option.map_eq_some_iff.mp hs
    exact h.fetch hl (List.mem_of_getElem? hd)
  | issue hand edit drawn =>
    obtain ⟨p, hp, rfl⟩ := Option.map_eq_some_iff.mp hs
    exact h.issue hl hp fun last hlast => hm last hlast p hp
  | offer i rank drawn answered =>
    simp only [replays.step] at hs
    split at hs
    next w last hw hlast =>
      split at hs
      next hnew =>
        cases hs
        exact h.settle hw hlast hnew
      next hold =>
        split at hs
        next d hd =>
          split at hs
          next hle =>
            cases hs
            exact h.conflict hl hw hd (hm last hlast w hw d hd (not_lt.mp hold) hle)
          next => cases hs
        next => cases hs
    next => cases hs
  | refuse i =>
    simp only [replays.step] at hs
    split at hs
    next w hw =>
      split at hs
      next => cases hs
      next hid =>
        cases hs
        exact h.fail hw hid
    next => cases hs

theorem Run.serial (hl : ed.Lawful content Sound Fit apply) {b : B} (hb : Sound b)
    {as : List (Act N E X)}
    (h : Run (step ed) (Meets ed content Sound apply) (start b) as s) :
    Serial ed content Sound Fit apply (content b) s :=
  h.invariant (Serial.start hb) fun _ _ _ hi hm hs => hi.step hl hm hs

theorem Serial.answered (h : Serial ed content Sound Fit apply c s) (hw : s.working = []) :
    (ids s).Perm s.succeeded := by
  have hdone : s.succeeded.Nodup := by
    have hall := h.all.nodup_iff.mpr List.nodup_range
    exact (List.nodup_append.mp (List.nodup_append.mp hall).1).1
  refine (List.perm_ext_iff_of_nodup h.once hdone).mpr fun id => ⟨fun hid => ?_, h.done id⟩
  rcases h.found id hid with hs | hworking
  · exact hs
  · rw [hw] at hworking
    cases hworking

theorem Serial.refused (h : Serial ed content Sound Fit apply c s) (hid : id ∈ s.failed) :
    id ∉ ids s := by
  have hall := List.nodup_append.mp (h.all.nodup_iff.mpr List.nodup_range)
  have hfirst := List.nodup_append.mp hall.1
  intro hin
  rcases h.found id hin with hs | hworking
  · exact hfirst.2.2 id hs id hid rfl
  · exact hall.2.2 id (List.mem_append_right _ hid) id hworking rfl

/-! ### Blocks that were just fetched -/

/-- Edits are issued on the last block that was decided, as it was fetched, and no block that is
not the one of an edit is taken for it. -/
def Fetched (ed : Editing N E X B F) (s : State N E X B) : Act N E X → Prop
  | .issue hand _ _ => ∀ last ∈ s.decided.getLast?, ∀ p ∈ s.hands[hand]?,
      p.2 = ed.view p.1 last.block
  | .offer i rank _ _ => ∀ last ∈ s.decided.getLast?, ∀ w ∈ s.working[i]?, ∀ d ∈ s.decided[rank]?,
      ed.version w.block ≤ ed.version last.block → ed.version w.block ≤ ed.version d.block →
        (w.id ∈ ids s → w.id ∈ d.ids) ∧
          (ed.same (ed.view w.attempt.node d.block) w.block = true ↔ w.id ∈ ids s)
  | _ => True

instance [DecidableEq B] (ed : Editing N E X B F) (s : State N E X B) (a : Act N E X) :
    Decidable (Fetched ed s a) := by
  cases a <;> unfold Fetched <;> infer_instance

theorem Run.of_fetched (hl : ed.Lawful content Sound Fit apply) {b : B} (hb : Sound b)
    (hview : ∀ n b, Sound b → ed.version (ed.view n b) = ed.version b ∧
      content (ed.view n b) = content b ∧ Sound (ed.view n b))
    {as : List (Act N E X)} (h : Run (step ed) (Fetched ed) (start b) as s) :
    Run (step ed) (Meets ed content Sound apply) (start b) as s := by
  induction h with
  | nil => exact Run.nil
  | snoc h hok hs ih =>
    rename_i t t' a
    refine Run.snoc ih ?_ hs
    have hserial := Run.serial hl hb ih
    cases a with
    | fetch node rank => trivial
    | issue hand edit drawn =>
      intro last hlast p hp
      have hsound := hserial.sound last (List.mem_of_getLast? hlast)
      right
      rw [hok last hlast p hp]
      exact hview p.1 last.block hsound
    | offer i rank drawn answered =>
      intro last hlast w hw d hd hv hv'
      obtain ⟨hown, hsame⟩ := hok last hlast w hw d hd hv hv'
      exact ⟨fun hin => ⟨hown hin, hsame.mpr hin⟩, fun hout heq => absurd (hsame.mp heq) hout⟩
    | refuse i => trivial

end replays
