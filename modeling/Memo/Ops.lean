-- Programs on a state that may fail. What a program wrote before it failed
-- stays written, as with exceptions. A specification says what holds after
-- the program returned, and what holds after it failed.
import Mathlib.Logic.Basic

namespace ops

variable {S F α β : Type}

/-- A program: its result, or its failure, and the state it leaves. -/
def Op (S F α : Type) : Type := S → Except F α × S

namespace Op

def pure (a : α) : Op S F α := fun s => (.ok a, s)

def bind (x : Op S F α) (f : α → Op S F β) : Op S F β := fun s =>
  match x s with
  | (.ok a, s') => f a s'
  | (.error e, s') => (.error e, s')

instance : Monad (Op S F) where
  pure := Op.pure
  bind := Op.bind

def throw (e : F) : Op S F α := fun s => (.error e, s)

/-- The handler starts in the state that the failure left. -/
def tryCatch (x : Op S F α) (handler : F → Op S F α) : Op S F α := fun s =>
  match x s with
  | (.ok a, s') => (.ok a, s')
  | (.error e, s') => handler e s'

def get : Op S F S := fun s => (.ok s, s)

def modify (f : S → S) : Op S F Unit := fun s => (.ok (), f s)

/-- A result computed elsewhere. -/
def ofExcept : Except F α → Op S F α
  | .ok a => Op.pure a
  | .error e => Op.throw e

@[simp] theorem pure_apply (a : α) (s : S) : (Pure.pure a : Op S F α) s = (.ok a, s) := rfl

@[simp] theorem throw_apply (e : F) (s : S) : (throw e : Op S F α) s = (.error e, s) := rfl

@[simp] theorem get_apply (s : S) : (get : Op S F S) s = (.ok s, s) := rfl

@[simp] theorem modify_apply (f : S → S) (s : S) :
    (modify f : Op S F Unit) s = (.ok (), f s) := rfl

variable {x : Op S F α} {f : α → Op S F β} {handler : F → Op S F α} {r : Except F α} {e : F}

theorem bind_of_ok {s s' : S} {a : α} (h : x s = (.ok a, s')) : (x >>= f) s = f a s' := by
  simp only [Bind.bind, Op.bind, h]

theorem bind_of_error {s s' : S} (h : x s = (.error e, s')) : (x >>= f) s = (.error e, s') := by
  simp only [Bind.bind, Op.bind, h]

theorem bind_eq_ok {s s'' : S} {b : β} (h : (x >>= f) s = (.ok b, s'')) :
    ∃ a s', x s = (.ok a, s') ∧ f a s' = (.ok b, s'') := by
  cases hx : x s with
  | mk res s' =>
    cases res with
    | ok a =>
      rw [bind_of_ok hx] at h
      exact ⟨a, s', rfl, h⟩
    | error e =>
      rw [bind_of_error hx] at h
      cases h

theorem bind_eq_error {s s'' : S} (h : (x >>= f) s = (.error e, s'')) :
    x s = (.error e, s'') ∨ ∃ a s', x s = (.ok a, s') ∧ f a s' = (.error e, s'') := by
  cases hx : x s with
  | mk res s' =>
    cases res with
    | ok a =>
      rw [bind_of_ok hx] at h
      exact Or.inr ⟨a, s', rfl, h⟩
    | error e' =>
      rw [bind_of_error hx] at h
      cases h
      exact Or.inl rfl

theorem ofExcept_eq_ok {s s' : S} {a : α} (h : (ofExcept r : Op S F α) s = (.ok a, s')) :
    r = .ok a ∧ s' = s := by
  cases r with
  | ok b =>
    cases h
    exact ⟨rfl, rfl⟩
  | error e => cases h

theorem ofExcept_eq_error {s s' : S} (h : (ofExcept r : Op S F α) s = (.error e, s')) :
    r = .error e ∧ s' = s := by
  cases r with
  | ok b => cases h
  | error e =>
    cases h
    exact ⟨rfl, rfl⟩

theorem tryCatch_of_ok {s s' : S} {a : α} (h : x s = (.ok a, s')) :
    tryCatch x handler s = (.ok a, s') := by
  simp only [tryCatch, h]

theorem tryCatch_of_error {s s' : S} (h : x s = (.error e, s')) :
    tryCatch x handler s = handler e s' := by
  simp only [tryCatch, h]

/-! ## Specifications -/

/-- From a state with `P` the program returns with `R`, or fails with `E`. -/
def Spec (P : S → Prop) (x : Op S F α) (R : α → S → Prop) (E : F → S → Prop) : Prop :=
  ∀ s, P s → match x s with
    | (.ok a, s') => R a s'
    | (.error e, s') => E e s'

variable {P P' : S → Prop} {R : α → S → Prop} {E : F → S → Prop}

theorem Spec.pure {a : α} (h : ∀ s, P s → R a s) :
    Spec P (Pure.pure a : Op S F α) R E := h

theorem Spec.throw (h : ∀ s, P s → E e s) : Spec P (Op.throw e : Op S F α) R E := h

theorem Spec.bind {M : α → S → Prop} {R : β → S → Prop} (hx : Spec P x M E)
    (hf : ∀ a, Spec (M a) (f a) R E) : Spec P (x >>= f) R E := by
  intro s hs
  have h := hx s hs
  simp only [Bind.bind, Op.bind]
  cases hxs : x s with
  | mk res s' =>
    rw [hxs] at h
    cases res with
    | ok a => exact hf a s' h
    | error e => exact h

theorem Spec.get_bind {f : S → Op S F β} {R : β → S → Prop}
    (h : ∀ s, P s → Spec (fun s' => s' = s) (f s) R E) : Spec P (Op.get >>= f) R E := by
  intro s hs
  exact h s hs s rfl

theorem Spec.modify {f : S → S} {R : Unit → S → Prop} (h : ∀ s, P s → R () (f s)) :
    Spec P (Op.modify f : Op S F Unit) R E := h

theorem Spec.ofExcept (hok : ∀ a, r = .ok a → ∀ s, P s → R a s)
    (herr : ∀ e, r = .error e → ∀ s, P s → E e s) :
    Spec P (Op.ofExcept r : Op S F α) R E := by
  cases r with
  | ok a => exact hok a rfl
  | error e => exact herr e rfl

theorem Spec.tryCatch {E' : F → S → Prop} (hx : Spec P x R E')
    (hh : ∀ e, Spec (E' e) (handler e) R E) :
    Spec P (Op.tryCatch x handler) R E := by
  intro s hs
  have h := hx s hs
  simp only [Op.tryCatch]
  cases hxs : x s with
  | mk res s' =>
    rw [hxs] at h
    cases res with
    | ok a => exact h
    | error e => exact hh e s' h

theorem Spec.weaken {R' : α → S → Prop} {E' : F → S → Prop} (hx : Spec P' x R' E')
    (hP : ∀ s, P s → P' s) (hR : ∀ a s, R' a s → R a s) (hE : ∀ e s, E' e s → E e s) :
    Spec P x R E := by
  intro s hs
  have h := hx s (hP s hs)
  cases hxs : x s with
  | mk res s' =>
    rw [hxs] at h
    cases res with
    | ok a => exact hR a s' h
    | error e => exact hE e s' h

theorem Spec.of_ok {s s' : S} {a : α} (hx : x s = (.ok a, s')) (h : R a s') :
    Spec (fun t => t = s) x R E := by
  rintro _ rfl
  rw [hx]
  exact h

theorem Spec.of_error {s s' : S} (hx : x s = (.error e, s')) (h : E e s') :
    Spec (fun t => t = s) x R E := by
  rintro _ rfl
  rw [hx]
  exact h

theorem Spec.state {I : S → Prop} (h : Spec P x (fun _ => I) fun _ => I) {s : S} (hs : P s) :
    I (x s).2 := by
  have := h s hs
  cases hxs : x s with
  | mk res s' =>
    rw [hxs] at this
    cases res with
    | ok a => exact this
    | error e => exact this

/-! ## What a program keeps -/

/-- What holds before the program holds after it, also when it fails. -/
def Keeps (I : S → Prop) (x : Op S F α) : Prop := ∀ s, I s → I (x s).2

section

variable {I : S → Prop}

theorem Keeps.spec (h : Keeps I x) : Spec I x (fun _ => I) fun _ => I := by
  intro s hs
  have hx := h s hs
  cases hxs : x s with
  | mk res s' =>
    rw [hxs] at hx
    cases res <;> exact hx

theorem Keeps.pure (a : α) : Keeps I (Pure.pure a : Op S F α) := fun _ h => h

theorem Keeps.throw (e : F) : Keeps I (Op.throw e : Op S F α) := fun _ h => h

theorem Keeps.ofExcept (r : Except F α) : Keeps I (Op.ofExcept r : Op S F α) := by
  cases r with
  | ok a => exact Keeps.pure a
  | error e => exact Keeps.throw e

theorem Keeps.modify {f : S → S} (h : ∀ s, I s → I (f s)) :
    Keeps I (Op.modify f : Op S F Unit) := h

theorem Keeps.bind (hx : Keeps I x) (hf : ∀ a, Keeps I (f a)) :
    Keeps I (x >>= f) := by
  intro s hs
  have h := hx s hs
  cases hxs : x s with
  | mk res s' =>
    rw [hxs] at h
    cases res with
    | ok a =>
      rw [bind_of_ok hxs]
      exact hf a s' h
    | error e =>
      rw [bind_of_error hxs]
      exact h

theorem Keeps.get_bind {f : S → Op S F β} (h : ∀ s, I s → Keeps I (f s)) :
    Keeps I (Op.get >>= f) := fun s hs => h s hs s hs

theorem Keeps.ite {p : Prop} [Decidable p] {y : Op S F α} (hx : Keeps I x) (hy : Keeps I y) :
    Keeps I (if p then x else y) := by
  split
  · exact hx
  · exact hy

end

/-! ## Two runs side by side -/

/-- From two states with `P`, both programs return the same result with `R`, or fail the same way
with `E`. -/
def Sim (P : S → S → Prop) (x y : Op S F α) (R : α → S → S → Prop) (E : F → S → S → Prop) :
    Prop :=
  ∀ s t, P s t → match x s, y t with
    | (.ok a, s'), (.ok b, t') => b = a ∧ R a s' t'
    | (.error e, s'), (.error e', t') => e' = e ∧ E e s' t'
    | _, _ => False

section

variable {P P' : S → S → Prop} {R : α → S → S → Prop} {E : F → S → S → Prop}

theorem Sim.pure {a : α} (h : ∀ s t, P s t → R a s t) :
    Sim P (Pure.pure a : Op S F α) (Pure.pure a) R E :=
  fun s t hp => ⟨rfl, h s t hp⟩

theorem Sim.throw (h : ∀ s t, P s t → E e s t) :
    Sim P (Op.throw e : Op S F α) (Op.throw e) R E :=
  fun s t hp => ⟨rfl, h s t hp⟩

variable {y : Op S F α} {s t : S}

theorem Sim.of_ok {s' t' : S} {a : α} (hx : x s = (.ok a, s')) (hy : y t = (.ok a, t'))
    (h : R a s' t') : Sim (fun u v => u = s ∧ v = t) x y R E := by
  intro u v huv
  rw [huv.1, huv.2, hx, hy]
  exact ⟨rfl, h⟩

theorem Sim.of_error {s' t' : S} (hx : x s = (.error e, s')) (hy : y t = (.error e, t'))
    (h : E e s' t') : Sim (fun u v => u = s ∧ v = t) x y R E := by
  intro u v huv
  rw [huv.1, huv.2, hx, hy]
  exact ⟨rfl, h⟩

theorem Sim.cases (h : Sim P x y R E) (hp : P s t) :
    (∃ a s' t', x s = (.ok a, s') ∧ y t = (.ok a, t') ∧ R a s' t') ∨
      ∃ e s' t', x s = (.error e, s') ∧ y t = (.error e, t') ∧ E e s' t' := by
  have h' := h s t hp
  cases hx : x s with
  | mk rx s' =>
    cases hy : y t with
    | mk ry t' =>
      rw [hx, hy] at h'
      cases rx with
      | ok a =>
        cases ry with
        | ok b => exact Or.inl ⟨a, s', t', rfl, by rw [h'.1], h'.2⟩
        | error e => exact h'.elim
      | error e =>
        cases ry with
        | ok b => exact h'.elim
        | error e' => exact Or.inr ⟨e, s', t', rfl, by rw [h'.1], h'.2⟩

theorem Sim.of_states (h : ∀ s t, P s t → Sim (fun u v => u = s ∧ v = t) x y R E) : Sim P x y R E :=
  fun s t hp => h s t hp s t ⟨rfl, rfl⟩

theorem Sim.bind {g : α → Op S F β} {M : α → S → S → Prop} {R : β → S → S → Prop}
    (hx : Sim P x y M E) (hf : ∀ a, Sim (M a) (f a) (g a) R E) :
    Sim P (x >>= f) (y >>= g) R E := by
  intro s t hp
  rcases hx.cases hp with ⟨a, s', t', hs, ht, hm⟩ | ⟨e, s', t', hs, ht, he⟩
  · rw [bind_of_ok hs, bind_of_ok ht]
    exact hf a s' t' hm
  · rw [bind_of_error hs, bind_of_error ht]
    exact ⟨rfl, he⟩

theorem Sim.get_bind {f g : S → Op S F β} {R : β → S → S → Prop}
    (h : ∀ s t, P s t → Sim (fun u v => u = s ∧ v = t) (f s) (g t) R E) :
    Sim P (Op.get >>= f) (Op.get >>= g) R E :=
  fun s t hp => h s t hp s t ⟨rfl, rfl⟩

theorem Sim.modify {f g : S → S} {R : Unit → S → S → Prop}
    (h : ∀ s t, P s t → R () (f s) (g t)) :
    Sim P (Op.modify f : Op S F Unit) (Op.modify g) R E :=
  fun s t hp => ⟨rfl, h s t hp⟩

theorem Sim.ofExcept (hok : ∀ a, r = .ok a → ∀ s t, P s t → R a s t)
    (herr : ∀ e, r = .error e → ∀ s t, P s t → E e s t) :
    Sim P (Op.ofExcept r : Op S F α) (Op.ofExcept r) R E := by
  cases r with
  | ok a => exact Sim.pure (hok a rfl)
  | error e => exact Sim.throw (herr e rfl)

theorem Sim.tryCatch {handler' : F → Op S F α} {E' : F → S → S → Prop} (hx : Sim P x y R E')
    (hh : ∀ e, Sim (E' e) (handler e) (handler' e) R E) :
    Sim P (Op.tryCatch x handler) (Op.tryCatch y handler') R E := by
  intro s t hp
  rcases hx.cases hp with ⟨a, s', t', hs, ht, hr⟩ | ⟨e, s', t', hs, ht, he⟩
  · rw [tryCatch_of_ok hs, tryCatch_of_ok ht]
    exact ⟨rfl, hr⟩
  · rw [tryCatch_of_error hs, tryCatch_of_error ht]
    exact hh e s' t' he

theorem Sim.weaken {R' : α → S → S → Prop} {E' : F → S → S → Prop} (hx : Sim P' x y R' E')
    (hP : ∀ s t, P s t → P' s t) (hR : ∀ a s t, R' a s t → R a s t)
    (hE : ∀ e s t, E' e s t → E e s t) : Sim P x y R E := by
  intro s t hp
  rcases hx.cases (hP s t hp) with ⟨a, s', t', hs, ht, hr⟩ | ⟨e, s', t', hs, ht, he⟩
  · rw [hs, ht]
    exact ⟨rfl, hR a s' t' hr⟩
  · rw [hs, ht]
    exact ⟨rfl, hE e s' t' he⟩

theorem Sim.of_results {I : S → S → Prop} (hr : (x s).1 = (y t).1) (hi : I (x s).2 (y t).2) :
    Sim (fun u v => u = s ∧ v = t) x y (fun _ => I) (fun _ => I) := by
  intro u v huv
  rw [huv.1, huv.2]
  cases hx : x s with
  | mk rx s' =>
    cases hy : y t with
    | mk ry t' =>
      rw [hx, hy] at hr hi
      simp only at hr
      subst hr
      cases rx <;> exact ⟨rfl, hi⟩

theorem Sim.results {I : S → S → Prop} (h : Sim P x y (fun _ => I) fun _ => I) (hp : P s t) :
    (x s).1 = (y t).1 ∧ I (x s).2 (y t).2 := by
  rcases h.cases hp with ⟨a, s', t', hs, ht, hi⟩ | ⟨e, s', t', hs, ht, hi⟩
  · rw [hs, ht]
    exact ⟨rfl, hi⟩
  · rw [hs, ht]
    exact ⟨rfl, hi⟩

end

/-! ## Loops -/

section

variable {G : Type}

/-- The same program, with another name for its failures. -/
def mapError (f : F → G) (x : Op S F α) : Op S G α := fun s =>
  ((x s).1.mapError f, (x s).2)

theorem mapError_of_ok {f : F → G} {s s' : S} {a : α} (h : x s = (.ok a, s')) :
    mapError f x s = (.ok a, s') := by
  unfold mapError
  rw [h]
  rfl

/-- The body again and again until it gives a result, a number of times at most. -/
def loop (stuck : F) (body : Op S F (Option α)) : Nat → Op S F α
  | 0 => throw stuck
  | n + 1 => do
    match ← body with
    | some a => Pure.pure a
    | none => loop stuck body n

variable {stuck : F} {body : Op S F (Option α)} {s s' s'' : S} {a : α}

theorem loop_mono {m n : Nat} (h : loop stuck body m s = (.ok a, s')) (hmn : m ≤ n) :
    loop stuck body n s = (.ok a, s') := by
  induction m generalizing n s with
  | zero => cases h
  | succ m ih =>
    obtain ⟨k, rfl⟩ : ∃ k, n = k + 1 := ⟨n - 1, by omega⟩
    obtain ⟨o, s₁, hbody, h⟩ := bind_eq_ok h
    unfold loop
    rw [bind_of_ok hbody]
    cases o with
    | some b => exact h
    | none => exact ih h (by omega)

/-- The body until it gives a result, where every turn makes the state smaller. -/
def run_until (stuck : F) (size : S → Nat) (body : Op S F (Option α)) : Op S F α := fun s =>
  loop stuck body (size s + 1) s

variable {size : S → Nat}

theorem run_until_some (h : body s = (.ok (some a), s')) :
    run_until stuck size body s = (.ok a, s') := by
  unfold run_until loop
  rw [bind_of_ok h]
  rfl

theorem run_until_none (h : body s = (.ok none, s')) (hsize : size s' < size s)
    (hu : run_until stuck size body s' = (.ok a, s'')) :
    run_until stuck size body s = (.ok a, s'') := by
  change loop stuck body (size s + 1) s = _
  unfold loop
  rw [bind_of_ok h]
  exact loop_mono hu (by omega)

end

theorem forM_run {f : α → Op S F Unit} (state : List α → S) {xs : List α}
    (h : ∀ before x later, xs = before ++ x :: later →
      f x (state before) = (.ok (), state (before ++ [x]))) :
    xs.forM f (state []) = (.ok (), state xs) := by
  have hrun : ∀ later before, xs = before ++ later →
      later.forM f (state before) = (.ok (), state xs) := by
    intro later
    induction later with
    | nil =>
      intro before hxs
      rw [hxs, List.append_nil]
      rfl
    | cons x later ih =>
      intro before hxs
      change (f x >>= fun _ => later.forM f) (state before) = _
      rw [bind_of_ok (h before x later hxs)]
      exact ih (before ++ [x]) (by simp [hxs])
  exact hrun xs [] rfl

end Op

end ops
