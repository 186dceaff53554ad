-- A value and its version. A value that was submitted for acceptance at one
-- version can come back at another: a run keeps the value it found when it
-- moves to a later version, it submits its own value again there, and a server
-- that missed versions keeps its record when it is moved. While none of these
-- happens, a value is decided at one version only.
import Memo.PaxosAgreement
import Memo.ServerLaws

open majority voting runs

namespace athena.paxos.World

variable {T Id : Type}
variable {w w' : World T Id} {Q : Finset Id}

/-! ## The condition on the steps -/

/-- The run asked for the acceptance of some value. -/
def hasAsked (w : World T Id) (k : Nat) : Bool :=
  w.calls.any fun c => c.task == k && c.request matches .accept _ _ _

/-- A run that moves to another version found a value of that version, or it found no value in any
attempt and asked for no acceptance. -/
def movesOn [LinearOrder Id] (w : World T Id) (k : Nat) (run : Choose T Id) : Bool :=
  match run.phase with
  | .proposing responses =>
    match weigh (w.quorumOf run.client) run.proposal run.replace run.weak_error
      (responses.map (·.2)) with
    | .retry version _ _ =>
      version == run.proposal.version ||
      responses.any (fun x => x.2.value.isSome && x.2.proposal.any (·.version == version)) ||
      (run.replace.isNone && responses.all (·.2.value.isNone) && !w.hasAsked k)
    | _ => true
  | _ => true

/-- The accept phase of a run does not end with the promise of another version. -/
def staysInVersion [LinearOrder Id] (w : World T Id) (run : Choose T Id) (s : Id) : Bool :=
  match run.phase, w.replyTo run.waiting s with
  | .accepting _, some (.ok (.minimum m)) =>
    !decide (run.proposal < m) || m.version == run.proposal.version
  | _, _ => true

/-- The condition on a step: no value goes from one version to another. -/
def KeepsValues [LinearOrder Id] (w : World T Id) : Action T Id → Prop
  | .deliver i => ∀ call ∈ w.calls[i]?, (w.servers call.peer).KeepsVersion call.request
  | .receive k s => ofChoose (w.staysInVersion · s) (w.tasks k) = true
  | .advance k => ofChoose (w.movesOn k) (w.tasks k) = true
  | _ => True

instance [LinearOrder Id] (w : World T Id) (a : Action T Id) : Decidable (KeepsValues w a) :=
  match a with
  | .deliver i => inferInstanceAs (Decidable (∀ call ∈ w.calls[i]?,
      (w.servers call.peer).KeepsVersion call.request))
  | .receive k s => inferInstanceAs (Decidable (ofChoose (w.staysInVersion · s) (w.tasks k) = true))
  | .advance k => inferInstanceAs (Decidable (ofChoose (w.movesOn k) (w.tasks k) = true))
  | .choose _ _ _ _ => isTrue trivial
  | .state _ _ => isTrue trivial
  | .unavailable _ _ => isTrue trivial
  | .weak_error _ _ _ => isTrue trivial

/-- The values passed to `choose`. -/
def submissions (as : List (Action T Id)) : List (Value T Id) :=
  as.filterMap fun a => match a with
    | .choose _ _ _ value => some value
    | _ => none

/-! ## The values asked for -/

/-- The run asked for the acceptance of the value under the proposal. -/
def Asked (w : World T Id) (k : Nat) (p : Proposal Id) (v : Value T Id) : Prop :=
  ∃ c ∈ w.calls, c.task = k ∧ ∃ q, c.request = .accept q p v

/-- Some run asked for the acceptance of the value at the version. -/
def AskedAt (w : World T Id) (version : Int) (v : Value T Id) : Prop :=
  ∃ k p, w.Asked k p v ∧ p.version = version

variable {p : Proposal Id} {v : Value T Id} {a : Action T Id} {run : Choose T Id} {k : Nat}
  {r : Request T Id}

theorem Asked.follows (hf : Follows w w') (h : w.Asked k p v) : w'.Asked k p v := by
  obtain ⟨⟨k₀, n, s, r, x⟩, hc, hk, q, hq⟩ := h
  obtain ⟨i, hi⟩ := List.getElem?_of_mem hc
  obtain ⟨x', hx', -⟩ := hf i _ _ _ _ _ hi
  exact ⟨_, List.mem_of_getElem? hx', hk, q, hq⟩

theorem AskedAt.follows {version : Int} (hf : Follows w w') (h : w.AskedAt version v) :
    w'.AskedAt version v := by
  obtain ⟨k, p, ha, hver⟩ := h
  exact ⟨k, p, ha.follows hf, hver⟩

theorem hasAsked_of_asked (h : w.Asked k p v) :
    w.hasAsked k = true := by
  obtain ⟨c, hc, hk, q, hq⟩ := h
  simp only [hasAsked, List.any_eq_true, Bool.and_eq_true, beq_iff_eq]
  exact ⟨c, hc, hk, by rw [hq]⟩

theorem asked_launch {k' n : Nat} {peers : List Id}
    (hc : w'.calls = w.calls ++ callsOf k' n peers r) (h : w'.Asked k p v) :
    w.Asked k p v ∨ k = k' ∧ ∃ q, r = .accept q p v := by
  obtain ⟨c, hmem, hk, q, hq⟩ := h
  rw [hc] at hmem
  rcases List.mem_append.mp hmem with hmem | hmem
  · exact Or.inl ⟨c, hmem, hk, q, hq⟩
  · obtain ⟨s, -, rfl⟩ := List.mem_map.mp hmem
    exact Or.inr ⟨hk.symm, q, hq⟩

theorem asked_of_calls (hc : w'.calls = w.calls) (h : w'.Asked k p v) : w.Asked k p v := by
  unfold Asked at h
  rw [hc] at h
  exact h

theorem asked_of_launch {k' n : Nat} {peers : List Id}
    (hc : w'.calls = w.calls ++ callsOf k' n peers r) (hr : ∀ q, r ≠ .accept q p v)
    (h : w'.Asked k p v) : w.Asked k p v := by
  rcases asked_launch hc h with h | ⟨-, q, hq⟩
  · exact h
  · exact absurd hq (hr q)

variable [LinearOrder Id]

theorem asked_of_deliver [Inhabited Id] {i : Nat} {call : Call T Id} (hi : w.calls[i]? = some call)
    (h : (w.deliver i call).Asked k p v) :
    w.Asked k p v := by
  obtain ⟨c, hc, hk, q, hq⟩ := h
  rcases List.mem_or_eq_of_mem_set hc with hc | rfl
  · exact ⟨c, hc, hk, q, hq⟩
  · exact ⟨_, List.mem_of_getElem? hi, hk, q, hq⟩

theorem asked_step [Inhabited Id] (hs : Stepped w a w') (h : w'.Asked k p v) :
    w.Asked k p v ∨ ∃ run responses replace, a = .advance k ∧ w.tasks k = some (.choose run) ∧
      run.phase = .proposing responses ∧
      weigh (w.quorumOf run.client) run.proposal run.replace run.weak_error
        (responses.map (·.2)) = .accept replace ∧
      p = run.proposal ∧ v = replace.getD run.value ∧
      ∃ run', w'.tasks k = some (.choose run') ∧ run'.phase = .accepting [] := by
  cases hs with
  | choose hk | state hk => exact Or.inl (asked_of_launch rfl (by simp) h)
  | deliver hi hr => exact Or.inl (asked_of_deliver hi h)
  | retry hk hw hp hv => exact Or.inl (asked_of_launch rfl (by simp) h)
  | @accept k' run responses replace hk hw hp hv =>
    rcases asked_launch rfl h with h | ⟨rfl, q, hq⟩
    · exact Or.inl h
    · cases hq
      refine Or.inr ⟨run, responses, replace, rfl, hk, hp, hv, rfl, rfl, ?_⟩
      exact ⟨_, Function.update_self .., rfl⟩
  | resume hk hw hp | confirm hk hw hp hc => exact Or.inl (asked_of_launch rfl (by simp) h)
  | _ => exact Or.inl (asked_of_calls rfl h)

theorem asked_stays [Inhabited Id] (hs : Stepped w a w') (hk : w'.tasks k = some (.choose run))
    (hno : a = .advance k → run.phase ≠ .accepting []) (h : w'.Asked k p v) :
    w.Asked k p v := by
  rcases asked_step hs h with h | ⟨-, -, -, rfl, -, -, -, -, -, run', hk', hp⟩
  · exact h
  · rw [hk] at hk'
    cases hk'
    exact absurd hp (hno rfl)

/-! ## The servers -/

/-- What an answer carries was asked for at the version of its label, which is not below the
version of the proposal. -/
def Carries (w : World T Id) (p : Proposal Id) (r : Response T Id) : Prop :=
  r.Labelled ∧ ∀ l u, r.proposal = some l → r.value = some u →
    p.version ≤ l.version ∧ w.AskedAt l.version u

/-- The record of a server was asked for. -/
def Stored (w : World T Id) (sv : Server T Id) : Prop :=
  ∀ sp a, sv.state = some ⟨sp, some a⟩ → ∃ k, w.Asked k a.proposal a.value

theorem Stored.carries {sv sv' : Server T Id} {r : Response T Id} {q : Finset Id} (h : Stored w sv)
    (hc : sv.Coherent) (hk : sv.KeepsVersion (.propose q p))
    (hp : Server.Proposed sv p (.ok r) sv') : Carries w p r := by
  have hrecord : ∀ {sp : Proposal Id} {a : Accepted T Id}, sv.state = some ⟨sp, some a⟩ →
      w.AskedAt a.proposal.version a.value := by
    intro sp a hs
    obtain ⟨k, ha⟩ := h sp a hs
    exact ⟨k, _, ha, rfl⟩
  cases hp with
  | newer hs hv =>
    refine ⟨by simp [Response.Labelled], ?_⟩
    rintro l u ⟨⟩ ⟨⟩
    exact ⟨hv.le, hrecord hs⟩
  | first hs | next hs hv hc | skip hs hv hpart hc => exact ⟨by simp [Response.Labelled], by simp⟩
  | @raise st hs hlt hv =>
    obtain ⟨sp, _ | a⟩ := st
    · exact ⟨by simp [Response.Labelled, VersionState.report], by simp [VersionState.report]⟩
    · refine ⟨by simp [Response.Labelled, VersionState.report], ?_⟩
      rintro l u ⟨⟩ ⟨⟩
      refine ⟨?_, hc sp a hs ▸ hrecord hs⟩
      rcases hv with hv | hpart
      · exact hv.ge
      · exact hk hpart sp a hs
  | @refused st hs hle =>
    obtain ⟨sp, _ | a⟩ := st
    · exact ⟨by simp [Response.Labelled, VersionState.refusal], by simp [VersionState.refusal]⟩
    · refine ⟨by simp [Response.Labelled, VersionState.refusal], ?_⟩
      rintro l u ⟨⟩ ⟨⟩
      exact ⟨Proposal.version_mono hle, hc sp a hs ▸ hrecord hs⟩

theorem Stored.handle [Inhabited Id] {sv : Server T Id} (h : Stored w sv)
    (hr : ∀ q p v, r = .accept q p v → ∃ k, w.Asked k p v) : Stored w (sv.handle r).2 := by
  apply Server.handle_rule h
  · intro q p _ res s' hp
    cases hp with
    | failed e => exact h
    | newer hs hv => exact h
    | first hs => rintro sp a ⟨⟩
    | next hs hv hc => rintro sp a ⟨⟩
    | skip hs hv hpart hc => rintro sp a ⟨⟩
    | @raise st hs hlt hv =>
      obtain ⟨sp, acc⟩ := st
      rintro sp' a ⟨⟩
      exact h sp a hs
    | refused hs hle => exact h
  · intro q p v hreq res s' ha
    cases ha with
    | failed e => exact h
    | obsolete hs hlt => exact h
    | accepted hs hp =>
      rintro sp a ⟨⟩
      exact hr q p v hreq
  · intro q p _ res s' hc
    cases hc with
    | failed e => exact h
    | obsolete hs hv => exact h
    | already hs hle hv ha => exact h
    | @confirmed sp a hs hle hv ha =>
      rintro sp' a' ⟨⟩
      exact h sp a hs

/-! ## The runs -/

/-- The value that a run found was asked for at its version, and a run that found no value asked
for its own only, at its version. -/
structure Ready (w : World T Id) (k : Nat) (run : Choose T Id) : Prop where
  carried : ∀ v, run.replace = some v → w.AskedAt run.version v
  own : run.replace = none → ∀ p v, w.Asked k p v → p.version = run.version ∧ v = run.value

/-- The proposal of a run is of its version, until another version is promised to others. -/
def Current (run : Choose T Id) : Phase T Id → Prop
  | .proposing _ => run.proposal.version = run.version
  | .accepting _ => run.proposal.version = run.version
  | _ => True

omit [LinearOrder Id] in
theorem Ready.follows (h : Ready w k run) (hf : Follows w w')
    (hn : ∀ p v, w'.Asked k p v → w.Asked k p v) : Ready w' k run :=
  ⟨fun v hv => (h.carried v hv).follows hf, fun hr p v ha => h.own hr p v (hn p v ha)⟩

structure Once (Q : Finset Id) (w : World T Id) : Prop where
  orderly : Orderly Q w
  coherent : ∀ s, (w.servers s).Coherent
  stored : ∀ s, Stored w (w.servers s)
  answers : ∀ k n s p r, w.Replied k n s (.propose Q p) (.response r) → Carries w p r
  runs : ∀ k run, w.tasks k = some (.choose run) → Ready w k run ∧ Current run run.phase
  origin : ∀ k p v, w.Asked k p v → ∃ k₀ run₀ p₀, w.tasks k₀ = some (.choose run₀) ∧
    run₀.value = v ∧ w.Asked k₀ p₀ v
  one_version : ∀ k k' p p' v, w.Asked k p v → w.Asked k' p' v → p.version = p'.version
  distinct : ∀ k k' run run', w.tasks k = some (.choose run) → w.tasks k' = some (.choose run') →
    run.value = run'.value → k = k'

namespace Once

variable {responses : List (Id × Response T Id)} {replace : Option (Value T Id)}

theorem carries (h : Once Q w) (hk : w.tasks k = some (.choose run))
    (hp : run.phase = .proposing responses) : ∀ r ∈ responses.map (·.2),
      Carries w run.proposal r := by
  intro r hr
  obtain ⟨x, hx, rfl⟩ := List.mem_map.mp hr
  have hinv := h.orderly.tasks k _ hk
  simp only [TaskInv, hp] at hinv
  exact h.answers _ _ _ _ _ (hinv.2 x hx)

theorem ready_retry (h : Once Q w) {version round : Int} (hk : w.tasks k = some (.choose run))
    (hp : run.phase = .proposing responses)
    (hv : weigh (w.quorumOf run.client) run.proposal run.replace run.weak_error
      (responses.map (·.2)) = .retry version round replace) (hmove : w.movesOn k run = true) :
    Ready w k { run with version, replace } := by
  have hcarries := h.carries hk hp
  obtain ⟨hready, hcurrent⟩ := h.runs k run hk
  rw [hp] at hcurrent
  obtain ⟨rfl, rp, hle, rfl, hmax⟩ := weigh_retry hv
  simp only [movesOn, hp, hv, Bool.or_eq_true, Bool.and_eq_true, beq_iff_eq] at hmove
  by_cases hvalued : ∃ r ∈ responses.map (·.2), r.value.isSome
  · obtain ⟨r, hr, hsome⟩ := hvalued
    obtain ⟨r₀, hr₀, l₀, v, hl₀, hv₀, hrepl, hmax₀⟩ :=
      replacement_of_valued run.replace (fun r hr => (hcarries r hr).1) hr hsome
    obtain ⟨hge, hasked⟩ := (hcarries r₀ hr₀).2 l₀ v hl₀ hv₀
    have hle₀ := Proposal.version_mono (hmax r₀ hr₀ l₀ hl₀)
    -- the highest value found is of the version that the run moves to
    have hver : l₀.version = rp.version := by
      rcases hmove with (hsame | hfound) | ⟨⟨-, hnone⟩, -⟩
      · omega
      · simp only [List.any_eq_true, Bool.and_eq_true, Option.any_eq_true, beq_iff_eq] at hfound
        obtain ⟨x, hx, hxv, l, hl, hlver⟩ := hfound
        have := Proposal.version_mono
          (hmax₀ x.2 (List.mem_map.mpr ⟨x, hx, rfl⟩) hxv l hl)
        omega
      · obtain ⟨x, hx, rfl⟩ := List.mem_map.mp hr
        have := List.all_eq_true.mp hnone x hx
        simp only [Option.isNone_iff_eq_none] at this
        simp [this] at hsome
    refine ⟨?_, ?_⟩
    · intro u hu
      simp only [hrepl, Option.some.injEq] at hu
      subst hu
      exact hver ▸ hasked
    · intro hnone
      simp [hrepl] at hnone
  · have hnone : ∀ r ∈ responses.map (·.2), r.value = none := by
      intro r hr
      by_contra hne
      exact hvalued ⟨r, hr, Option.isSome_iff_ne_none.mpr hne⟩
    rw [replacement_of_not_valued hnone]
    rcases hmove with (hsame | hfound) | ⟨⟨hrepl, -⟩, hasked⟩
    · have hver : rp.version = run.version := hsame.trans hcurrent
      rw [hver]
      exact ⟨hready.carried, hready.own⟩
    · simp only [List.any_eq_true, Bool.and_eq_true] at hfound
      obtain ⟨x, hx, hxv, -⟩ := hfound
      simp [hnone x.2 (List.mem_map.mpr ⟨x, hx, rfl⟩)] at hxv
    · simp only [Option.isNone_iff_eq_none] at hrepl
      refine ⟨by simp [hrepl], ?_⟩
      intro _ p v ha
      simp [hasAsked_of_asked ha] at hasked

theorem ask (h : Once Q w) (hk : w.tasks k = some (.choose run))
    (hp : run.phase = .proposing responses)
    (hv : weigh (w.quorumOf run.client) run.proposal run.replace run.weak_error
      (responses.map (·.2)) = .accept replace) :
    (∃ u, replace = some u ∧ w.AskedAt run.version u) ∨ replace = none ∧ run.replace = none := by
  have hcarries := h.carries hk hp
  obtain ⟨hready, hcurrent⟩ := h.runs k run hk
  rw [hp] at hcurrent
  obtain ⟨-, -, hgrants, rfl⟩ := weigh_accept hv
  by_cases hvalued : ∃ r ∈ responses.map (·.2), r.value.isSome
  · obtain ⟨r, hr, hsome⟩ := hvalued
    obtain ⟨r₀, hr₀, l₀, v, hl₀, hv₀, hrepl, -⟩ :=
      replacement_of_valued run.replace (fun r hr => (hcarries r hr).1) hr hsome
    obtain ⟨hge, hasked⟩ := (hcarries r₀ hr₀).2 l₀ v hl₀ hv₀
    have hle := Proposal.version_le (hgrants r₀ hr₀ l₀ hl₀)
    have hver : l₀.version = run.version := (le_antisymm hle hge).trans hcurrent
    exact Or.inl ⟨v, hrepl, hver ▸ hasked⟩
  · have hnone : ∀ r ∈ responses.map (·.2), r.value = none := by
      intro r hr
      by_contra hne
      exact hvalued ⟨r, hr, Option.isSome_iff_ne_none.mpr hne⟩
    rw [replacement_of_not_valued hnone]
    cases hrepl : run.replace with
    | none => exact Or.inr ⟨rfl, rfl⟩
    | some u => exact Or.inl ⟨u, rfl, hready.carried u hrepl⟩

theorem asked_before (h : Once Q w) (hk : w.tasks k = some (.choose run))
    (hp : run.phase = .proposing responses)
    (hv : weigh (w.quorumOf run.client) run.proposal run.replace run.weak_error
      (responses.map (·.2)) = .accept replace) {k' : Nat}
    (ha : w.Asked k' p (replace.getD run.value)) : p.version = run.proposal.version := by
  obtain ⟨hready, hcurrent⟩ := h.runs k run hk
  rw [hp] at hcurrent
  rcases h.ask hk hp hv with ⟨u, rfl, k₁, p₁, ha₁, hver₁⟩ | ⟨rfl, hnone⟩
  · exact (h.one_version _ _ _ _ _ ha ha₁).trans (hver₁.trans hcurrent.symm)
  · -- the first request for it was by the run itself
    obtain ⟨k₀, run₀, p₀, hk₀, hval, ha₀⟩ := h.origin k' p _ ha
    have hkk := h.distinct k₀ k run₀ run hk₀ hk hval
    subst hkk
    have hown := hready.own hnone p₀ _ ha₀
    exact (h.one_version _ _ _ _ _ ha ha₀).trans (hown.1.trans hcurrent.symm)

theorem one_version_step [Inhabited Id] (h : Once Q w) (hs : Stepped w a w') {k' : Nat}
    {p' : Proposal Id} (ha : w'.Asked k p v) (ha' : w'.Asked k' p' v) :
    p.version = p'.version := by
  rcases asked_step hs ha with ha | ⟨run, responses, replace, rfl, hk, hp, hv, rfl, rfl, -⟩
  · rcases asked_step hs ha' with ha' | ⟨run, responses, replace, rfl, hk, hp, hv, rfl, rfl, -⟩
    · exact h.one_version _ _ _ _ _ ha ha'
    · exact h.asked_before hk hp hv ha
  · rcases asked_step hs ha' with ha' | ⟨run', responses', replace', hact, hk', hp', hv', rfl, -⟩
    · exact (h.asked_before hk hp hv ha').symm
    · cases hact
      rw [hk] at hk'
      cases hk'
      rfl

end Once

/-! ## The values of the runs -/

variable [Inhabited Id]

theorem value_step {run' : Choose T Id} (hs : Stepped w a w')
    (hk : w'.tasks k = some (.choose run')) :
    (∃ run, w.tasks k = some (.choose run) ∧ run.value = run'.value) ∨
      w.tasks k = none ∧ ∃ c version, a = .choose k c version run'.value := by
  rcases run_cases hs hk with ⟨run, hk', hr⟩ | ⟨hnone, c, version, value, proposal, -, rfl, -, rfl⟩
  · refine Or.inl ⟨run, hk', ?_⟩
    cases hr with
    | receive hr => exact (Choose.receive_keeps ..).1.symm
    | _ => rfl
  · exact Or.inr ⟨hnone, c, version, rfl⟩

theorem choose_stays (hs : Stepped w a w') (hk : w.tasks k = some (.choose run)) :
    ∃ run', w'.tasks k = some (.choose run') := by
  have hset : ∀ {k' : Nat} {run₂ : Choose T Id},
      w'.tasks = (w.setTask k' (.choose run₂)).tasks →
        ∃ run', w'.tasks k = some (.choose run') := by
    intro k' run₂ ht
    simp only [ht, setTask, Function.update_apply]
    by_cases hkk : k = k'
    · exact ⟨run₂, if_pos hkk⟩
    · exact ⟨run, by rw [if_neg hkk]; exact hk⟩
  have hread : ∀ {k' : Nat} {read : Read T Id}, w'.tasks = (w.setTask k' (.state read)).tasks →
      k ≠ k' → ∃ run', w'.tasks k = some (.choose run') := by
    intro k' read ht hkk
    simp only [ht, setTask, Function.update_apply]
    exact ⟨run, by rw [if_neg hkk]; exact hk⟩
  cases hs with
  | state hnone => exact hread rfl (by rintro rfl; simp [hk] at hnone)
  | deliver hi hr => exact ⟨run, hk⟩
  | read_receive hk' hr => exact hread rfl (by rintro rfl; simp [hk] at hk')
  | read_unavailable hk' hm => exact hread rfl (by rintro rfl; simp [hk] at hk')
  | read_weak_error hk' hm => exact hread rfl (by rintro rfl; simp [hk] at hk')
  | read_finish hk' hw ho => exact hread rfl (by rintro rfl; simp [hk] at hk')
  | _ => exact hset rfl

theorem value_stays (hs : Stepped w a w') (hk : w.tasks k = some (.choose run)) :
    ∃ run', w'.tasks k = some (.choose run') ∧ run'.value = run.value := by
  obtain ⟨run', hk'⟩ := choose_stays hs hk
  rcases value_step hs hk' with ⟨run₀, hk₀, hval⟩ | ⟨hnone, -⟩
  · rw [hk] at hk₀
    cases hk₀
    exact ⟨run', hk', hval.symm⟩
  · simp [hk] at hnone

namespace Once

variable {a : Action T Id}

theorem origin_step (h : Once Q w) (hs : Stepped w a w') (hf : Follows w w') (ha : w'.Asked k p v) :
    ∃ k₀ run₀ p₀, w'.tasks k₀ = some (.choose run₀) ∧ run₀.value = v ∧ w'.Asked k₀ p₀ v := by
  -- a request made before has its origin
  have hold : ∀ {k : Nat} {p : Proposal Id}, w.Asked k p v → ∃ k₀ run₀ p₀,
      w'.tasks k₀ = some (.choose run₀) ∧ run₀.value = v ∧ w'.Asked k₀ p₀ v := by
    intro k p ha
    obtain ⟨k₀, run₀, p₀, hk₀, hval, ha₀⟩ := h.origin k p v ha
    obtain ⟨run₁, hk₁, hval₁⟩ := value_stays hs hk₀
    exact ⟨k₀, run₁, p₀, hk₁, hval₁.trans hval, ha₀.follows hf⟩
  rcases asked_step hs ha with hb | ⟨run, responses, replace, -, hk, hp, hv, -, rfl, -⟩
  · exact hold hb
  · rcases h.ask hk hp hv with ⟨u, rfl, k₁, p₁, ha₁, -⟩ | ⟨rfl, -⟩
    · exact hold ha₁
    · obtain ⟨run₁, hk₁, hval₁⟩ := value_stays hs hk
      exact ⟨k, run₁, p, hk₁, hval₁, ha⟩

omit [Inhabited Id] in
theorem ready_receive {s : Id} {reply : Except (Error Id) (Answer T Id)} (round : Int)
    (h : Ready w k run ∧ Current run run.phase) (hr : w.replyTo run.waiting s = some reply)
    (hstay : w.staysInVersion run s = true) :
    Ready w k (run.receive round s reply).1 ∧
      Current (run.receive round s reply).1 (run.receive round s reply).1.phase := by
  obtain ⟨hready, hcurrent⟩ := h
  unfold Choose.receive
  split
  · exact ⟨⟨hready.carried, hready.own⟩, trivial⟩
  · split
    · rename_i responses r hp
      rw [hp] at hcurrent
      exact ⟨⟨hready.carried, hready.own⟩, hcurrent⟩
    · rename_i reached m hp
      rw [hp] at hcurrent
      split_ifs with hlt
      · -- the promise is of the same version
        simp only [staysInVersion, hp, hr, hlt, decide_true, Bool.not_true, Bool.false_or,
          beq_iff_eq] at hstay
        have hver : m.version = run.version := hstay.trans hcurrent
        refine ⟨?_, trivial⟩
        rw [hver]
        exact ⟨hready.carried, hready.own⟩
      · exact ⟨⟨hready.carried, hready.own⟩, hcurrent⟩
    · exact ⟨⟨hready.carried, hready.own⟩, trivial⟩
    · exact ⟨⟨hready.carried, hready.own⟩, hcurrent⟩

theorem ready_accept (h : Once Q w) (hs : Stepped w a w') {responses : List (Id × Response T Id)}
    {replace : Option (Value T Id)} {waiting : List (Id × Nat)}
    (hk : w.tasks k = some (.choose run)) (hp : run.phase = .proposing responses)
    (hv : weigh (w.quorumOf run.client) run.proposal run.replace run.weak_error
      (responses.map (·.2)) = .accept replace) (hf : Follows w w') :
    Ready w' k (entered { run with replace } waiting (.accepting [])) := by
  obtain ⟨hready, hcurrent⟩ := h.runs k run hk
  rw [hp] at hcurrent
  rcases h.ask hk hp hv with ⟨u, rfl, hasked⟩ | ⟨rfl, hnone⟩
  · refine ⟨?_, by simp [entered]⟩
    rintro v ⟨⟩
    exact hasked.follows hf
  · refine ⟨by simp [entered], ?_⟩
    -- the run asks for its own value
    intro _ p v ha
    rcases asked_step hs ha with ha | ⟨run₀, responses₀, replace₀, -, hk₀, hp₀, hv₀, rfl, rfl, -⟩
    · exact hready.own hnone p v ha
    · rw [hk] at hk₀
      cases hk₀
      rw [hp] at hp₀
      cases hp₀
      rw [hv] at hv₀
      cases hv₀
      exact ⟨hcurrent, rfl⟩

theorem runs_step (h : Once Q w) (hok : KeepsValues w a) (hs : Stepped w a w') (hf : Follows w w')
    {run' : Choose T Id} (hk : w'.tasks k = some (.choose run')) :
    Ready w' k run' ∧ Current run' run'.phase := by
  have hkeep : (a = .advance k → run'.phase ≠ .accepting []) → Ready w k run' →
      Ready w' k run' := fun hno hrun => hrun.follows hf fun p v => asked_stays hs hk hno
  rcases run_cases hs hk with
    ⟨run, hk', hr⟩ | ⟨hnone, c, version, value, proposal, waiting, rfl, hver, rfl⟩
  · obtain ⟨hready, hcurrent⟩ := h.runs k run hk'
    cases hr with
    | same ha => exact ⟨hkeep (fun h => absurd h ha) hready, hcurrent⟩
    | receive hr =>
      simp only [KeepsValues, hk', ofChoose] at hok
      obtain ⟨hready', hcurrent'⟩ := ready_receive _ ⟨hready, hcurrent⟩ hr hok
      exact ⟨hkeep (by simp) hready', hcurrent'⟩
    | unavailable | weak_error => exact ⟨hkeep (by simp) ⟨hready.carried, hready.own⟩, hcurrent⟩
    | chosen hw hp hv | failed => exact ⟨hkeep (by simp) ⟨hready.carried, hready.own⟩, trivial⟩
    | retry hp hv hver =>
      simp only [KeepsValues, hk', ofChoose] at hok
      have hready' := h.ready_retry hk' hp hv hok
      exact ⟨hkeep (by simp [renewed]) ⟨hready'.carried, hready'.own⟩, hver⟩
    | accept hp hv =>
      rw [hp] at hcurrent
      exact ⟨h.ready_accept hs hk' hp hv hf, hcurrent⟩
    | resume hver => exact ⟨hkeep (by simp [renewed]) ⟨hready.carried, hready.own⟩, hver⟩
    | confirm => exact ⟨hkeep (by simp [entered]) ⟨hready.carried, hready.own⟩, trivial⟩
    | returned hw hp hc => exact ⟨hkeep (by simp) ⟨hready.carried, hready.own⟩, trivial⟩
  · -- a run that starts now has asked for nothing
    refine ⟨hkeep (by simp) ⟨by simp [renewed, Choose.start], ?_⟩, hver⟩
    rintro - p v ⟨call, hcall, hck, -⟩
    obtain ⟨t, ht, -⟩ := h.orderly.dated call hcall
    simp [hck, hnone] at ht

theorem servers_step (h : Once Q w) (hok : KeepsValues w a) (hs : w.step a = some w') (s : Id) :
    (w'.servers s).Coherent ∧ Stored w' (w'.servers s) := by
  have hf := Follows.of_step hs
  have hstored : ∀ {sv : Server T Id}, Stored w sv → Stored w' sv := by
    intro sv hsv sp a ha
    obtain ⟨k, hk⟩ := hsv sp a ha
    exact ⟨k, hk.follows hf⟩
  rcases step_deliver_or_quiet hs with ⟨i, call, rfl, hi, hr, rfl⟩ | hq
  · rw [servers_deliver]
    by_cases hp : s = call.peer
    · rw [if_pos hp]
      subst hp
      refine ⟨(h.coherent call.peer).handle (hok call hi), hstored ?_⟩
      apply (h.stored call.peer).handle
      exact fun q p v hreq => ⟨call.task, call, List.mem_of_getElem? hi, rfl, q, hreq⟩
    · rw [if_neg hp]
      exact ⟨h.coherent s, hstored (h.stored s)⟩
  · rw [hq.1]
    exact ⟨h.coherent s, hstored (h.stored s)⟩

theorem answers_step (h : Once Q w) (hok : KeepsValues w a) (hs : w.step a = some w') {n : Nat}
    {s : Id} {r : Response T Id} (hr : w'.Replied k n s (.propose Q p) (.response r)) :
    Carries w' p r := by
  have hf := Follows.of_step hs
  suffices Carries w p r by
    refine ⟨this.1, fun l u hl hu => ?_⟩
    obtain ⟨hle, ha⟩ := this.2 l u hl hu
    exact ⟨hle, ha.follows hf⟩
  rcases step_deliver_or_quiet hs with ⟨i, call, rfl, hi, -, rfl⟩ | hq
  · rcases replied_deliver hi hr with hr | ⟨-, -, hpeer, hreq, hres⟩
    · exact h.answers k n s p r hr
    · subst hpeer
      have hkeep := hok call hi
      rw [hreq] at hkeep
      exact (h.stored call.peer).carries (h.coherent call.peer) hkeep (Server.propose_answer hres)
  · exact h.answers k n s p r (hq.replied.mp hr)

theorem step (h : Once Q w) (hok : KeepsValues w a) (hs : w.step a = some w')
    (hnew : ∀ k c version value, a = .choose k c version value →
      ∀ k' run, w.tasks k' = some (.choose run) → run.value ≠ value) : Once Q w' := by
  have hf := Follows.of_step hs
  have hc := step_cases hs
  refine ⟨h.orderly.step hs, fun s => (h.servers_step hok hs s).1,
    fun s => (h.servers_step hok hs s).2, fun _ _ _ _ _ hr => h.answers_step hok hs hr,
    fun _ _ hk => h.runs_step hok hc hf hk, fun _ _ _ ha => h.origin_step hc hf ha,
    fun _ _ _ _ _ ha ha' => h.one_version_step hc ha ha', ?_⟩
  intro k k' run run' hk hk' hval
  rcases value_step hc hk with ⟨run₀, hk₀, hval₀⟩ | ⟨-, c, version, rfl⟩
  · rcases value_step hc hk' with ⟨run₁, hk₁, hval₁⟩ | ⟨-, c, version, rfl⟩
    · exact h.distinct k k' run₀ run₁ hk₀ hk₁ (hval₀.trans (hval.trans hval₁.symm))
    · exact absurd (hval₀.trans hval) (hnew k' c version _ rfl k run₀ hk₀)
  · rcases value_step hc hk' with ⟨run₁, hk₁, hval₁⟩ | ⟨-, c', version', heq⟩
    · exact absurd (hval₁.trans hval.symm) (hnew k c version _ rfl k' run₁ hk₁)
    · simp only [Action.choose.injEq] at heq
      exact heq.1

end Once

omit [Inhabited Id] in
theorem Initial.once (h : Initial Q w) : Once Q w := by
  have hasked : ∀ k p v, ¬ w.Asked k p v := by
    rintro k p v ⟨c, hc, -⟩
    simp [h.calls] at hc
  have hstate : ∀ s, (w.servers s).state = none := by
    intro s
    obtain ⟨value, version, hs⟩ := h.servers s
    rw [hs]
    rfl
  refine ⟨h.orderly, ?_, ?_, ?_, ?_, ?_, ?_, ?_⟩
  · intro s sp a hs
    simp [hstate] at hs
  · intro s sp a hs
    simp [hstate] at hs
  · rintro k n s p r ⟨i, hi⟩
    simp [h.calls] at hi
  · intro k run hk
    simp [h.tasks] at hk
  · exact fun k p v ha => absurd ha (hasked k p v)
  · exact fun k _ p _ v ha => absurd ha (hasked k p v)
  · intro k k' run run' hk
    simp [h.tasks] at hk

/-- In every run in which no value goes from one version to another, and each value is submitted
once, a value is chosen at one version only. -/
theorem a_value_is_chosen_at_one_version_while_values_stay {w₀ : World T Id}
    {as : List (Action T Id)} {p p' : Proposal Id} {v : Value T Id} (h₀ : Initial Q w₀)
    (h : Run step KeepsValues w₀ as w) (hn : (submissions as).Nodup) (hc : w.Chosen Q p v)
    (hc' : w.Chosen Q p' v) : p.version = p'.version := by
  have hinv := h.history (I := fun as w => (submissions as).Nodup →
    Once Q w ∧ ∀ k run, w.tasks k = some (.choose run) → run.value ∈ submissions as)
    (fun _ => ⟨h₀.once, fun k run hk => by simp [h₀.tasks] at hk⟩) ?_ hn
  · obtain ⟨s, hs⟩ := hc.voted
    obtain ⟨s', hs'⟩ := hc'.voted
    obtain ⟨c, hmem, hreq⟩ := Voted.call hs
    obtain ⟨c', hmem', hreq'⟩ := Voted.call hs'
    exact hinv.1.one_version c.task c'.task p p' v ⟨c, hmem, rfl, Q, hreq⟩
      ⟨c', hmem', rfl, Q, hreq'⟩
  · intro as w a w' ih hok hs hn'
    have happ : submissions (as ++ [a]) = submissions as ++ submissions [a] :=
      List.filterMap_append
    rw [happ, List.nodup_append] at hn'
    obtain ⟨honce, hmem⟩ := ih hn'.1
    refine ⟨honce.step hok hs ?_, ?_⟩
    · rintro k c version value rfl k' run hk heq
      exact hn'.2.2 _ (hmem k' run hk) value (by simp [submissions]) heq
    · intro k run hk
      rw [happ, List.mem_append]
      rcases value_step (step_cases hs) hk with ⟨run₀, hk₀, hval⟩ | ⟨-, c, version, rfl⟩
      · exact Or.inl (hval ▸ hmem k run₀ hk₀)
      · exact Or.inr (by simp [submissions])

/-- The value 100 is accepted by all, and another run of the version finds it and submits it under
its own proposal. -/
def foundValue : List (Action Nat Nat) :=
  [.choose 0 0 1 (.value 100), .deliver 0, .deliver 1, .deliver 2, .receive 0 1, .receive 0 2,
    .receive 0 3, .advance 0, .deliver 3, .deliver 4, .deliver 5, .choose 1 1 1 (.value 101),
    .deliver 6, .deliver 7, .deliver 8, .receive 1 1, .receive 1 2, .receive 1 3, .advance 1,
    .deliver 9, .deliver 10]

theorem a_found_value_is_chosen_at_its_version :
    ∃ w : World Nat Nat, Run step KeepsValues (three (11 + ·)) foundValue w ∧
      w.Chosen {1, 2, 3} ⟨1, 1, 11⟩ (.value 100) ∧ w.Chosen {1, 2, 3} ⟨1, 1, 12⟩ (.value 100) ∧
      (⟨1, 1, 11⟩ : Proposal Nat).version = (⟨1, 1, 12⟩ : Proposal Nat).version := by
  have hexec : (exec step KeepsValues (three (11 + ·)) foundValue).map
      (fun w => (w.voters {1, 2, 3} ⟨1, 1, 11⟩ (.value 100),
        w.voters {1, 2, 3} ⟨1, 1, 12⟩ (.value 100))) = some ([1, 2, 3], [1, 2]) := by decide +kernel
  obtain ⟨w, hw, hv⟩ := Run.of_exec_map hexec
  obtain ⟨hv₁, hv₂⟩ := Prod.mk.inj hv
  have hc₁ : w.Chosen {1, 2, 3} ⟨1, 1, 11⟩ (.value 100) :=
    Chosen.of_voters (by rw [hv₁]; decide)
  have hc₂ : w.Chosen {1, 2, 3} ⟨1, 1, 12⟩ (.value 100) :=
    Chosen.of_voters (by rw [hv₂]; decide)
  exact ⟨w, hw, hc₁, hc₂,
    a_value_is_chosen_at_one_version_while_values_stay (initial_three _) hw (by decide) hc₁ hc₂⟩

/-- The value 100 is accepted at version 1 by all. A proposal for version 2 reaches the server 3,
and a run for version 1 finds 100 and then the promise of version 2: it submits 100 there. -/
def carriedValue : List (Action Nat Nat) :=
  [.choose 0 0 1 (.value 100), .deliver 0, .deliver 1, .deliver 2, .receive 0 1, .receive 0 2,
    .receive 0 3, .advance 0, .deliver 3, .deliver 4, .deliver 5, .choose 1 2 2 (.value 103),
    .deliver 8, .choose 2 1 1 (.value 102), .deliver 9, .deliver 11, .receive 2 1, .receive 2 3,
    .unavailable 2 2, .advance 2, .deliver 12, .deliver 14, .receive 2 1, .receive 2 3,
    .unavailable 2 2, .advance 2, .deliver 15, .deliver 16]

theorem a_carried_value_is_chosen_at_two_versions :
    ∃ (w : World Nat Nat) (p p' : Proposal Nat) (v : Value Nat Nat),
      Initial {1, 2, 3} (three (11 + ·)) ∧ Run step anyStep (three (11 + ·)) carriedValue w ∧
      (submissions carriedValue).Nodup ∧ w.Chosen {1, 2, 3} p v ∧ w.Chosen {1, 2, 3} p' v ∧
      p.version ≠ p'.version := by
  have hexec : (exec step anyStep (three (11 + ·)) carriedValue).map
      (fun w => (w.voters {1, 2, 3} ⟨1, 1, 11⟩ (.value 100),
        w.voters {1, 2, 3} ⟨2, 2, 12⟩ (.value 100))) = some ([1, 2, 3], [1, 3]) := by decide +kernel
  obtain ⟨w, hw, hv⟩ := Run.of_exec_map hexec
  obtain ⟨hv₁, hv₂⟩ := Prod.mk.inj hv
  refine ⟨w, ⟨1, 1, 11⟩, ⟨2, 2, 12⟩, .value 100, initial_three _, hw, by decide, ?_, ?_, by decide⟩
  · exact Chosen.of_voters (by rw [hv₁]; decide)
  · exact Chosen.of_voters (by rw [hv₂]; decide)

end athena.paxos.World
