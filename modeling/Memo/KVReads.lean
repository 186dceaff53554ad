-- What a fetch of the key-value store returns: the data of a value that the root map had for
-- the key while the fetch was in progress, unless it gives up too early on a value that it
-- cannot fetch.
import Memo.KVAtomic

open stores runs

namespace memo.kvs

variable {A D : Type} [DecidableEq A]

/-- The value that a fetch returns, if any, is one that was inserted, and that the key had in a root
map that was current during the fetch. -/
def Fetched.FromMap (inserted : List (A × D)) (r : Fetched A D) : Prop :=
  ∀ v, r.reply = .ok v →
    ∃ km ∈ r.during, ∃ a d, held km r.key = some a ∧ (a, d) ∈ inserted ∧ v = some d

namespace Cluster

/-- Each fetch that succeeded returned a value of its key. -/
def ReadsValues (s : Cluster A D) : Prop := ∀ r ∈ s.fetched, r.FromMap s.inserted

/-- The value of a fetch cannot be fetched, the root block has the version of the last failure, and
the time of that failure is not long ago. -/
def Blanks (s : Cluster A D) : Action A D → Bool
  | .fails i now =>
    match s.requests[i]? with
    | some r =>
      match r.call with
      | .fetch_value _ lastVersion lastTime version _ =>
        decide (version = lastVersion) && decide (now - lastTime ≤ 10000000000)
      | _ => false
    | none => false
  | _ => false

end Cluster

/-- The values that are there were inserted. -/
def Inserted (values : Table A D) (inserted : List (A × D)) : Prop :=
  ∀ a d, find values a = some d → (a, d) ∈ inserted

theorem Inserted.deletes {values : Table A D} {inserted : List (A × D)}
    (h : Inserted values inserted) (a : A) : Inserted (put a none values) inserted := by
  intro a' d hfind
  rw [find_put] at hfind
  by_cases ha : a' = a
  · rw [ha, Function.update_self] at hfind
    cases hfind
  · rw [Function.update_of_ne ha] at hfind
    exact h a' d hfind

theorem Inserted.inserts {values : Table A D} {inserted : List (A × D)}
    (h : Inserted values inserted) (a : A) (d : D) :
    Inserted (put a (some d) values) (inserted ++ [(a, d)]) := by
  intro a' d' hfind
  rw [find_put] at hfind
  by_cases ha : a' = a
  · rw [ha, Function.update_self] at hfind
    cases hfind
    exact List.mem_append_right _ (by simp [ha])
  · rw [Function.update_of_ne ha] at hfind
    exact List.mem_append_left _ (h a' d' hfind)

omit [DecidableEq A] in
theorem Fetched.FromMap.mono {inserted inserted' : List (A × D)} {r : Fetched A D}
    (h : r.FromMap inserted) (hsub : inserted ⊆ inserted') : r.FromMap inserted' := by
  intro v hv
  obtain ⟨km, hkm, a, d, hheld, hmem, heq⟩ := h v hv
  exact ⟨km, hkm, a, d, hheld, hsub hmem, heq⟩

namespace Cluster

section

variable {s s' : Cluster A D} {i : Nat} {r : Request A D}

omit [DecidableEq A] in
theorem ReadsValues.fetches (hf : s.ReadsValues) {key : Key} {reply : Except Code (Option D)}
    {since : Nat}
    (h : Fetched.FromMap s.inserted { key := key, reply := reply, during := s.during since }) :
    (s.fetches key reply since).ReadsValues := by
  intro r hr
  rcases List.mem_append.mp hr with hr | hr
  · exact hf r hr
  · rw [List.mem_singleton.mp hr]
    exact h

omit [DecidableEq A] in
theorem ReadsValues.error (hf : s.ReadsValues) (key : Key) (code : Code) (since : Nat) :
    (s.fetches key (.error code) since).ReadsValues := by
  refine hf.fetches fun v hv => ?_
  cases hv

theorem serve_reads (hs : s.Sound) (hi : Inserted s.values s.inserted) (hf : s.ReadsValues)
    (h : s.serve i = some s') : Inserted s'.values s'.inserted ∧ s'.ReadsValues := by
  have hreplay : ∀ r op, Inserted (s.replay i r op s.root).values
      (s.replay i r op s.root).inserted ∧ (s.replay i r op s.root).ReadsValues := by
    intro r op
    unfold Cluster.replay Cluster.refused
    split
    · split
      · exact ⟨hi, hf⟩
      · exact ⟨hi, hf⟩
    · exact ⟨hi, hf⟩
    · exact ⟨hi, hf⟩
  unfold serve at h
  split at h
  next => cases h
  next r hr =>
    have hsound := (hs.requests r (List.mem_of_getElem? hr)).2
    split at h
    next => cases h
    next op hc =>
      cases h
      exact hreplay r op
    next op block km a hc =>
      cases h
      exact ⟨hi.deletes a, hf⟩
    next op block km hc =>
      split at h
      · cases h
        exact ⟨hi, hf⟩
      · cases h
        exact hreplay r op
    next op refusal hc =>
      cases h
      refine ⟨?_, hf⟩
      cases ha : op.store.address with
      | none => exact hi
      | some a => exact hi.deletes a
    next key v w hc =>
      cases h
      unfold fetch_root
      split
      · exact ⟨hi, hf⟩
      · exact ⟨hi, ReadsValues.error (s := s.ends i) hf key _ _⟩
    next key v w version a hc =>
      obtain ⟨d, hd, rfl⟩ := Option.map_eq_some_iff.mp h
      rw [hc] at hsound
      obtain ⟨km, hkm, hheld⟩ := hsound
      refine ⟨hi, ReadsValues.fetches (s := s.ends i) hf fun v hv => ?_⟩
      cases hv
      exact ⟨km, hkm, a, d, hheld, hi a d hd, rfl⟩

theorem step_reads {act : Action A D} (hs : s.Sound) (hi : Inserted s.values s.inserted)
    (hf : s.ReadsValues) (hblanks : s.Blanks act = false) (h : s.step act = some s') :
    Inserted s'.values s'.inserted ∧ s'.ReadsValues := by
  have hput : ∀ opType key value, Inserted (s.put opType key value).values
      (s.put opType key value).inserted ∧ (s.put opType key value).ReadsValues := by
    intro opType key value
    unfold Cluster.put
    split <;> exact ⟨hi, hf⟩
  cases act with
  | Insert key value =>
    cases h
    exact hput _ _ _
  | Update key value =>
    cases h
    exact hput _ _ _
  | Upsert key value =>
    cases h
    exact hput _ _ _
  | Delete key =>
    cases h
    unfold Cluster.Delete
    split <;> exact ⟨hi, hf⟩
  | Fetch key now =>
    cases h
    unfold Cluster.Fetch
    split
    · exact ⟨hi, hf.error key _ _⟩
    · exact ⟨hi, hf⟩
  | serve i => exact serve_reads hs hi hf h
  | inserts i a =>
    simp only [step, inserts] at h
    split at h
    next => cases h
    next r hr =>
      split at h
      next opType key value hc =>
        split at h
        · cases h
        · cases h
          refine ⟨hi.inserts a value, fun r hr => (hf r hr).mono ?_⟩
          exact List.subset_append_left _ _
      next => cases h
  | fails i now =>
    simp only [step, fails] at h
    split at h
    next => cases h
    next r hr =>
      split at h
      next => cases h; exact ⟨hi, hf⟩
      next => cases h; exact ⟨hi, hf⟩
      next => cases h; exact ⟨hi, hf⟩
      next => cases h; exact ⟨hi, hf⟩
      next => cases h; exact ⟨hi, hf⟩
      next key v w hc =>
        cases h
        exact ⟨hi, ReadsValues.error (s := s.ends i) hf key _ _⟩
      next key lastVersion lastTime version a hc =>
        split_ifs at h with hversion htime <;> cases h
        · exact ⟨hi, hf⟩
        · exact ⟨hi, ReadsValues.error (s := s.ends i) hf key _ _⟩
        · simp only [Blanks, hr, hc, Bool.and_eq_false_iff, decide_eq_false_iff_not] at hblanks
          rcases hblanks with hne | hlong
          · exact absurd hne hversion
          · exact absurd (not_le.mp hlong) htime

theorem Blanks.reads {act : Action A D} (hblanks : s.Blanks act = true)
    (h : s.step act = some s') : ¬ s'.ReadsValues := by
  cases act with
  | fails i now =>
    unfold Blanks at hblanks
    simp only [step, fails] at h
    cases hr : s.requests[i]? with
    | none => simp [hr] at hblanks
    | some r =>
      simp only [hr] at h hblanks
      cases hc : r.call with
      | fetch_value key lastVersion lastTime version a =>
        simp only [hc, Bool.and_eq_true, decide_eq_true_eq] at h hblanks
        rw [if_neg (not_not.mpr hblanks.1), if_neg (not_lt.mpr hblanks.2)] at h
        cases h
        intro hreads
        obtain ⟨km, -, a', d, -, -, heq⟩ :=
          hreads _ (List.mem_append_right _ (List.mem_singleton.mpr rfl)) none rfl
        cases heq
      | _ => simp [hc] at hblanks
  | _ => simp [Blanks] at hblanks

end

/-! ## Runs -/

/-- Each fetch that succeeds returns a value that its key had while it was in progress, in each
state of a run, exactly when none gives up on a value that it could not fetch. -/
theorem fetches_return_values_iff {version : Int} {acts : List (Action A D)} {s : Cluster A D}
    (hrun : Run step anyStep (NewServer version) acts s) :
    (∀ done t, done <+: acts → Run step anyStep (NewServer version) done t → t.ReadsValues) ↔
      Run step (fun s act => s.Blanks act = false) (NewServer version) acts s := by
  refine hrun.always_iff
    (I := fun s => s.Sound ∧ Inserted s.values s.inserted ∧ s.ReadsValues)
    ⟨new_server_sound version, ?_, ?_⟩ (fun _ h => h.2.2) ?_ ?_
  · intro a d hfind
    simp [NewServer, find] at hfind
  · simp [ReadsValues, NewServer]
  · rintro s act s' ⟨hs, hi, hf⟩ hblanks hstep
    exact ⟨hs.step hstep, step_reads hs hi hf hblanks hstep⟩
  · rintro s act s' - - hblanks hstep
    exact Blanks.reads ((Bool.not_eq_false _).mp hblanks) hstep

/-- The value of a key is replaced while it is fetched. -/
theorem fetches_return_values_replaced :
    ∃ s : Cluster Nat Nat, s.ReadsValues ∧ s.requests.length = 0 ∧
      s.fetched.map (fun r => r.reply.toOption) = [some (some 2)] := by
  have hrun : ((exec step (fun s act => s.Blanks act = false) (NewServer 0)
      [.Upsert ['k'] (some 1), .inserts 0 10, .serve 0, .serve 0, .Fetch ['k'] 5, .serve 0,
        .Upsert ['k'] (some 2), .inserts 1 11, .serve 1, .serve 1, .fails 0 6, .serve 1,
        .serve 0, .serve 0]).map fun s : Cluster Nat Nat =>
          (s.requests.length, s.fetched.map fun r => r.reply.toOption)) =
            some (0, [some (some 2)]) := by decide
  obtain ⟨s, hs, heq⟩ := Run.of_exec_map hrun
  rw [Prod.mk.injEq] at heq
  have hany := hs.mono fun _ _ _ => trivial
  exact ⟨s, (fetches_return_values_iff hany).mpr hs _ s List.prefix_rfl hany, heq⟩

/-- The value of a key is deleted, and the root block is not updated before the fetch comes back to
it. -/
theorem a_fetch_returns_no_value :
    ¬ ∀ (version : Int) (acts : List (Action Nat Nat)) (s : Cluster Nat Nat),
      Run step anyStep (NewServer version) acts s → s.ReadsValues := by
  intro h
  have hrun : ((exec step anyStep (NewServer 0)
      [.Upsert ['k'] (some 1), .inserts 0 10, .serve 0, .serve 0, .Upsert ['k'] (some 2),
        .inserts 0 11, .serve 0, .serve 0, .Fetch ['k'] 5, .serve 1, .fails 1 6, .serve 1,
        .fails 1 7]).map fun s : Cluster Nat Nat =>
          s.fetched.map fun r => r.reply.toOption) = some [some none] := by decide
  obtain ⟨s, hs, heq⟩ := Run.of_exec_map hrun
  have hmem : some none ∈ s.fetched.map fun r => r.reply.toOption := by simp [heq]
  obtain ⟨r, hr, hreply⟩ := List.mem_map.mp hmem
  cases hok : r.reply with
  | error code =>
    rw [hok] at hreply
    cases hreply
  | ok v =>
    rw [hok] at hreply
    cases hreply
    obtain ⟨km, -, a, d, -, -, hnone⟩ := h _ _ s hs r hr none hok
    cases hnone

end Cluster

end memo.kvs
