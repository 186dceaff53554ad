-- Runs of a system that takes one action after another. A step may be
-- refused (`none`), and a run may be asked to meet a condition at each step.
import Mathlib.Data.List.Basic
import Mathlib.Data.List.Induction

namespace runs

variable {S A : Type*} {step : S → A → Option S} {ok : S → A → Prop}

/-- The actions lead from `s` to the last state, and each step meets `ok`. -/
inductive Run (step : S → A → Option S) (ok : S → A → Prop) (s : S) : List A → S → Prop
  | nil : Run step ok s [] s
  | snoc {as : List A} {s' s'' : S} {a : A} :
      Run step ok s as s' → ok s' a → step s' a = some s'' → Run step ok s (as ++ [a]) s''

/-- No condition on the steps. -/
def anyStep (_ : S) (_ : A) : Prop := True

variable {as : List A} {c : S → A → Prop} {f : S → A → S} {I : S → Prop} {s s' : S}

/-- What holds of the actions so far and of the state, at the start and after each step that
meets the condition, holds at the end. -/
theorem Run.history {I : List A → S → Prop} (h : Run step ok s as s') (h0 : I [] s)
    (hstep : ∀ as s a s', I as s → ok s a → step s a = some s' → I (as ++ [a]) s') :
    I as s' := by
  induction h with
  | nil => exact h0
  | snoc _ hok hs ih => exact hstep _ _ _ _ ih hok hs

theorem Run.invariant (h : Run step ok s as s') (h0 : I s)
    (hstep : ∀ s a s', I s → ok s a → step s a = some s' → I s') : I s' :=
  h.history (I := fun _ s => I s) h0 fun _ => hstep

theorem Run.mono {ok' : S → A → Prop} (h : Run step ok s as s') (hm : ∀ s a, ok s a → ok' s a) :
    Run step ok' s as s' := by
  induction h with
  | nil => exact Run.nil
  | snoc _ hok hs ih => exact Run.snoc ih (hm _ _ hok) hs

theorem Run.append {s'' : S} {bs : List A} (h : Run step ok s as s') (h' : Run step ok s' bs s'') :
    Run step ok s (as ++ bs) s'' := by
  induction h' with
  | nil =>
    rw [List.append_nil]
    exact h
  | snoc _ hok hs ih =>
    rw [← List.append_assoc]
    exact Run.snoc ih hok hs

theorem Run.cons {s'' : S} {a : A} (hok : ok s a) (hs : step s a = some s')
    (h : Run step ok s' as s'') : Run step ok s (a :: as) s'' :=
  (Run.snoc Run.nil hok hs).append h

theorem Run.snoc_inv {s'' : S} {a : A} (h : Run step ok s (as ++ [a]) s'') :
    ∃ s', Run step ok s as s' ∧ ok s' a ∧ step s' a = some s'' := by
  generalize hl : as ++ [a] = l at h
  cases h with
  | nil => simp at hl
  | snoc h hok hs =>
    obtain ⟨rfl, ha⟩ := List.append_inj' hl rfl
    cases ha
    exact ⟨_, h, hok, hs⟩

theorem Run.of_prefix {bs : List A} (h : Run step ok s bs s') (hp : as <+: bs) :
    ∃ t, Run step ok s as t := by
  induction h with
  | nil =>
    rw [List.prefix_nil.mp hp]
    exact ⟨s, Run.nil⟩
  | snoc h hok hs ih =>
    rcases List.prefix_concat_iff.mp (by simpa using hp) with rfl | hp
    · exact ⟨_, by simpa using Run.snoc h hok hs⟩
    · exact ih hp

theorem Run.unique {t t' : S} (h : Run step ok s as t) (h' : Run step ok s as t') : t = t' := by
  induction h generalizing t' with
  | nil =>
    generalize hl : ([] : List A) = l at h'
    cases h' with
    | nil => rfl
    | snoc => simp at hl
  | snoc _ _ hs ih =>
    obtain ⟨u, hu, -, hs'⟩ := h'.snoc_inv
    rw [← ih hu, hs, Option.some.injEq] at hs'
    exact hs'

/-- A property that is kept by the steps that meet a condition, and lost by the others, holds
in each state of a run when and only when each of its steps meets the condition. -/
theorem Run.always_iff {P : S → Prop} (hrun : Run step ok s as s') (h0 : I s) (hP : ∀ s, I s → P s)
    (hkeep : ∀ s a s', I s → c s a → step s a = some s' → I s')
    (hlose : ∀ s a s', I s → ok s a → ¬ c s a → step s a = some s' → ¬ P s') :
    (∀ done t, done <+: as → Run step ok s done t → P t) ↔ Run step c s as s' := by
  have hinv : ∀ done t, Run step c s done t → I t := fun _ _ h => h.invariant h0 hkeep
  constructor
  · intro hall
    have hc : ∀ done t, Run step ok s done t → done <+: as → Run step c s done t := by
      intro done t h
      induction h with
      | nil => exact fun _ => Run.nil
      | snoc h hok hs ih =>
        intro hp
        have hrest := ih ((List.prefix_append _ _).trans hp)
        refine Run.snoc hrest ?_ hs
        by_contra hc
        exact hlose _ _ _ (hinv _ _ hrest) hok hc hs (hall _ _ hp (Run.snoc h hok hs))
    exact hc as s' hrun List.prefix_rfl
  · intro hall done t hp h
    obtain ⟨u, hu⟩ := hall.of_prefix hp
    have heq : t = u := (h.mono fun _ _ _ => trivial).unique (hu.mono fun _ _ _ => trivial)
    rw [heq]
    exact hP u (hinv done u hu)

/-- Each step of the actions meets the condition. The steps are never refused. -/
def Always (c : S → A → Prop) (f : S → A → S) (s : S) : List A → Prop
  | [] => True
  | a :: as => c s a ∧ Always c f (f s a) as

/-- What holds at the start, and after each step that meets the condition, holds at the end of
a part of a run whose steps all meet it. -/
theorem Always.invariant {done : List A} (h : Always c f s as) (h0 : I s)
    (hkeep : ∀ s a, I s → c s a → I (f s a)) (hp : done <+: as) : I (done.foldl f s) := by
  induction done generalizing s as with
  | nil => exact h0
  | cons a done ih =>
    obtain ⟨as, rfl⟩ := hp
    exact ih h.2 (hkeep s a h0 h.1) (List.prefix_append done as)

theorem always_of_mem (h : ∀ s, ∀ a ∈ as, c s a) : Always c f s as := by
  induction as generalizing s with
  | nil => trivial
  | cons a as ih =>
    exact ⟨h s a List.mem_cons_self, ih fun s b hb => h s b (List.mem_cons_of_mem a hb)⟩

theorem Always.at {done : List A} {a : A} (h : Always c f s as) (hp : done ++ [a] <+: as) :
    c (done.foldl f s) a := by
  induction done generalizing s as with
  | nil =>
    obtain ⟨as, rfl⟩ := hp
    exact h.1
  | cons b done ih =>
    obtain ⟨as, rfl⟩ := hp
    exact ih h.2 (List.prefix_append (done ++ [a]) as)

theorem foldl_always_iff {P : S → Prop} (h0 : I s) (hP : ∀ s, I s → P s)
    (hkeep : ∀ s a, I s → c s a → I (f s a)) (hlose : ∀ s a, I s → ¬ c s a → ¬ P (f s a)) :
    (∀ done, done <+: as → P (done.foldl f s)) ↔
      ∀ done a, done ++ [a] <+: as → c (done.foldl f s) a := by
  have hsnoc : ∀ done a, (done ++ [a]).foldl f s = f (done.foldl f s) a := by
    intro done a
    rw [List.foldl_append, List.foldl_cons, List.foldl_nil]
  constructor
  · intro hall
    have hmeets : ∀ done a, I (done.foldl f s) → done ++ [a] <+: as → c (done.foldl f s) a := by
      intro done a hi hp
      by_contra hc
      exact hlose _ _ hi hc (hsnoc done a ▸ hall _ hp)
    have hI : ∀ done, done <+: as → I (done.foldl f s) := by
      intro done
      induction done using List.reverseRecOn with
      | nil => exact fun _ => h0
      | append_singleton done a ih =>
        intro hp
        have hi := ih ((List.prefix_append done [a]).trans hp)
        rw [hsnoc]
        exact hkeep _ _ hi (hmeets done a hi hp)
    exact fun done a hp => hmeets done a (hI done ((List.prefix_append done [a]).trans hp)) hp
  · intro hall done hp
    apply hP
    induction done using List.reverseRecOn with
    | nil => exact h0
    | append_singleton done a ih =>
      rw [hsnoc]
      exact hkeep _ _ (ih ((List.prefix_append done [a]).trans hp)) (hall done a hp)

theorem foldl_steps_iff {P : S → A → Prop} (h0 : I s) (hiff : ∀ s, ∀ a ∈ as, I s → (P s a ↔ c s a))
    (hkeep : ∀ s, ∀ a ∈ as, I s → P s a → I (f s a)) :
    (∀ done a, done ++ [a] <+: as → P (done.foldl f s) a) ↔
      ∀ done a, done ++ [a] <+: as → c (done.foldl f s) a := by
  have hmem : ∀ done a, done ++ [a] <+: as → a ∈ as := fun done a hp =>
    hp.subset (List.mem_append_right _ List.mem_cons_self)
  have hinv : (∀ done a, done ++ [a] <+: as → I (done.foldl f s) → P (done.foldl f s) a) →
      ∀ done, done <+: as → I (done.foldl f s) := by
    intro hall done
    induction done using List.reverseRecOn with
    | nil => exact fun _ => h0
    | append_singleton done a ih =>
      intro hp
      have hi := ih ((List.prefix_append done [a]).trans hp)
      rw [List.foldl_append]
      exact hkeep _ _ (hmem done a hp) hi (hall done a hp hi)
  constructor
  · intro hall done a hp
    have hi := hinv (fun done a hp _ => hall done a hp) done
      ((List.prefix_append done [a]).trans hp)
    exact (hiff _ _ (hmem done a hp) hi).1 (hall done a hp)
  · intro hall done a hp
    have hmeets : ∀ done a, done ++ [a] <+: as → I (done.foldl f s) → P (done.foldl f s) a :=
      fun done a hp hi => (hiff _ _ (hmem done a hp) hi).2 (hall done a hp)
    exact hmeets done a hp (hinv hmeets done ((List.prefix_append done [a]).trans hp))

instance (s : S) (a : A) : Decidable (anyStep s a) := isTrue trivial

/-- The run of a list of actions, computed. -/
def exec (step : S → A → Option S) (ok : S → A → Prop) [∀ s a, Decidable (ok s a)] (s : S) :
    List A → Option S
  | [] => some s
  | a :: as => if ok s a then (step s a).bind fun s' => exec step ok s' as else none

variable [∀ s a, Decidable (ok s a)]

theorem Run.of_exec (h : exec step ok s as = some s') :
    Run step ok s as s' := by
  induction as generalizing s with
  | nil =>
    simp only [exec, Option.some.injEq] at h
    subst h
    exact Run.nil
  | cons a as ih =>
    simp only [exec] at h
    split_ifs at h with hok
    rw [Option.bind_eq_some_iff] at h
    obtain ⟨t, ht, hrest⟩ := h
    exact Run.cons hok ht (ih hrest)

theorem Run.of_exec_map {B : Type*} {f : S → B} {b : B} (h : (exec step ok s as).map f = some b) :
    ∃ s', Run step ok s as s' ∧ f s' = b := by
  rw [Option.map_eq_some_iff] at h
  obtain ⟨s', hs', hf⟩ := h
  exact ⟨s', Run.of_exec hs', hf⟩

end runs
