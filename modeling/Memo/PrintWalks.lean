-- How the count of the arguments moves along a format. A percent sign that is
-- asked for in a branch counts as an argument where the branch is skipped, and
-- as none where it is printed.
import Memo.PrintFormats

open ops

namespace elle._details

/-! ## The marks of a format -/

/-- What a format says about its arguments, in the order of its text: the next argument, the
argument of an index, as a condition or not, or a percent sign in a branch. -/
inductive Mark where
  | argument
  | index (condition : Bool) (n : Int)
  | percent
  deriving DecidableEq, Repr

def Var.marks (condition : Bool) : Var → List Mark
  | .name _ => []
  | .index n => [.index condition n]
  | .next => [.argument]

def Item.marks (inside : Bool) : Item → List Mark
  | .literal _ => []
  | .var v => v.marks false
  | .legacy leg =>
    if leg.fmt = '%' then
      if inside then [.percent] else []
    else [.argument]

/-- The marks of a phrase, which stands inside a branch or not. -/
def Phrase.marks (inside : Bool) : Phrase → List Mark
  | .nil => []
  | .item i rest => i.marks inside ++ rest.marks inside
  | .branch cond then_ rest => cond.marks true ++ (then_.marks true ++ rest.marks inside)

/-- How many arguments a format takes, in this order. -/
def arguments (ms : List Mark) : Nat := ms.count .argument

def Mark.placed : Mark → Bool
  | .index false _ => true
  | _ => false

def Mark.indexed : Mark → Bool
  | .index _ _ => true
  | _ => false

/-! ## What a walk refers to -/

/-- The references of a walk over the marks, from one count to another: a percent sign counts or
it does not. -/
inductive Refers : List Mark → Nat → List Int → Nat → Prop
  | nil {k : Nat} : Refers [] k [] k
  | argument {ms : List Mark} {k k' : Nat} {refs : List Int} :
      Refers ms (k + 1) refs k' → Refers (.argument :: ms) k (k :: refs) k'
  | index {ms : List Mark} {k k' : Nat} {refs : List Int} {condition : Bool} {n : Int} :
      Refers ms k refs k' → Refers (.index condition n :: ms) k (n :: refs) k'
  | printed {ms : List Mark} {k k' : Nat} {refs : List Int} :
      Refers ms k refs k' → Refers (.percent :: ms) k refs k'
  | skipped {ms : List Mark} {k k' : Nat} {refs : List Int} :
      Refers ms (k + 1) refs k' → Refers (.percent :: ms) k refs k'

variable {ms ms' : List Mark} {k k' k'' : Nat} {refs refs' : List Int}

theorem Refers.append (h : Refers ms k refs k') (h' : Refers ms' k' refs' k'') :
    Refers (ms ++ ms') k (refs ++ refs') k'' := by
  induction h with
  | nil => exact h'
  | argument _ ih => exact .argument (ih h')
  | index _ ih => exact .index (ih h')
  | printed _ ih => exact .printed (ih h')
  | skipped _ ih => exact .skipped (ih h')

/-- The references, where every percent sign counts or none does. -/
def number (counts : Bool) : Nat → List Mark → List Int
  | _, [] => []
  | k, .argument :: ms => k :: number counts (k + 1) ms
  | k, .index _ n :: ms => n :: number counts k ms
  | k, .percent :: ms => number counts (if counts then k + 1 else k) ms

/-- No argument follows a percent sign. -/
def Settled (ms : List Mark) : Prop := ms.Pairwise fun m m' => ¬(m = .percent ∧ m' = .argument)

instance : DecidablePred Settled := fun ms =>
  inferInstanceAs (Decidable (ms.Pairwise fun m m' => ¬(m = .percent ∧ m' = .argument)))

theorem number_of_no_argument (h : Mark.argument ∉ ms) (b c : Bool) (k k' : Nat) :
    number b k ms = number c k' ms := by
  induction ms generalizing k k' with
  | nil => rfl
  | cons m ms ih =>
    rw [List.mem_cons, not_or] at h
    cases m with
    | argument => exact absurd rfl h.1
    | index condition n => exact congrArg (n :: ·) (ih h.2 k k')
    | percent => exact ih h.2 _ _

theorem Settled.tail_percent (h : Settled (.percent :: ms)) : Mark.argument ∉ ms := by
  intro hm
  exact (List.pairwise_cons.1 h).1 _ hm ⟨rfl, rfl⟩

theorem Refers.eq_number (h : Refers ms k refs k') (hs : Settled ms) :
    refs = number false k ms := by
  induction h with
  | nil => rfl
  | argument _ ih | index _ ih => exact congrArg _ (ih (List.pairwise_cons.1 hs).2)
  | printed _ ih => exact ih (List.pairwise_cons.1 hs).2
  | skipped _ ih =>
    rw [ih (List.pairwise_cons.1 hs).2]
    exact number_of_no_argument hs.tail_percent _ _ _ _

theorem no_argument_of_number (hlt : k < k') (h : number false k ms = number true k' ms) :
    Mark.argument ∉ ms := by
  induction ms generalizing k k' with
  | nil => exact List.not_mem_nil
  | cons m ms ih =>
    cases m with
    | argument =>
      have := (List.cons.inj h).1
      omega
    | index condition n =>
      rw [List.mem_cons, not_or]
      exact ⟨by simp, ih hlt (List.cons.inj h).2⟩
    | percent =>
      rw [List.mem_cons, not_or]
      exact ⟨by simp, ih (Nat.lt_succ_of_lt hlt) h⟩

theorem number_injective (h : number false k ms = number true k ms) : Settled ms := by
  induction ms generalizing k with
  | nil => exact List.Pairwise.nil
  | cons m ms ih =>
    cases m with
    | argument | index condition n =>
      refine List.pairwise_cons.2 ⟨fun _ _ hm => ?_, ih (List.cons.inj h).2⟩
      cases hm.1
    | percent =>
      have hno : Mark.argument ∉ ms :=
        no_argument_of_number (Nat.lt_succ_self k) h
      refine List.pairwise_cons.2 ⟨fun m hm hp => hno (hp.2 ▸ hm), ?_⟩
      refine List.pairwise_of_forall_mem_list fun m hm m' hm' hp => hno (hp.2 ▸ hm')

/-! ## What a call does -/

/-- The error is about the argument `n`, which the list does not have, or it is not one of the
counts. -/
def Error.About (call : Call) (n : Int) : Error → Prop
  | .too_few size expected =>
    size = call.args.length ∧ expected = n + 1 ∧ (call.args.length : Int) ≤ n
  | .too_many _ _ _ => False
  | .invalid_format _ => False
  | .missing _ | .nonbool _ | .thrown => True

/-- What the use of the argument `n` changes: no more than the stream and what was read. -/
structure Used (call : Call) (n : Int) (s s' : Printer) : Prop where
  refs : s'.refs = s.refs
  count : s'.count = s.count
  full : s'.full_positional = s.full_positional
  reads : ∀ i ∈ s'.reads, i ∈ s.reads ∨ (i = n ∧ n < call.args.length)

variable {call : Call} {s s' s'' : Printer} {n : Int}

theorem Used.refl : Used call n s s := ⟨rfl, rfl, rfl, fun _ => Or.inl⟩

theorem Used.trans (h : Used call n s s') (h' : Used call n s' s'') : Used call n s s'' where
  refs := h'.refs.trans h.refs
  count := h'.count.trans h.count
  full := h'.full.trans h.full
  reads := fun i hi => (h'.reads i hi).elim (h.reads i) Or.inr

/-- A program that uses the argument `n` at most. -/
def Uses (call : Call) (n : Int) {α : Type} (x : Op Printer Error α) : Prop :=
  ∀ s, Op.Spec (· = s) x (fun _ s' => Used call n s s')
    (fun e s' => Used call n s s' ∧ e.About call n)

section

variable {α β : Type} {x : Op Printer Error α} {f : α → Op Printer Error β}

theorem Uses.bind (hx : Uses call n x) (hf : ∀ a, Uses call n (f a)) : Uses call n (x >>= f) := by
  intro s
  refine Op.Spec.bind (hx s) fun a s' hs' => ?_
  refine Op.Spec.weaken (hf a s') (fun _ => id) ?_ ?_ s' rfl
  · intro b s'' h
    exact hs'.trans h
  · intro e s'' h
    exact ⟨hs'.trans h.1, h.2⟩

theorem Uses.pure (a : α) : Uses call n (Pure.pure a : Op Printer Error α) := by
  rintro _ s rfl
  exact Used.refl

theorem Uses.modify {g : Printer → Printer} (h : ∀ s, Used call n s (g s)) :
    Uses call n (Op.modify g : Op Printer Error Unit) := by
  rintro _ s rfl
  exact h s

theorem Uses.nth (call : Call) (n : Int) : Uses call n (nth call n) := by
  unfold _details.nth
  split
  · rename_i h
    refine Uses.bind (Uses.modify fun s => ⟨rfl, rfl, rfl, ?_⟩) fun _ => Uses.pure _
    intro i hi
    rcases List.mem_append.1 hi with hi | hi
    · exact Or.inl hi
    · exact Or.inr ⟨List.mem_singleton.1 hi, h⟩
  · rename_i h
    rintro _ s rfl
    exact ⟨Used.refl, rfl, rfl, Int.not_lt.1 h⟩

theorem Uses.operator (arg : Argument) : Uses call n arg.call := by
  rintro _ s rfl
  unfold Argument.call
  cases arg.print s.stream with
  | mk r stream =>
    cases r with
    | ok _ => exact ⟨rfl, rfl, rfl, fun _ => Or.inl⟩
    | error _ => exact ⟨⟨rfl, rfl, rfl, fun _ => Or.inl⟩, trivial⟩

theorem Uses.bool (arg : Argument) : Uses call n arg.bool := by
  unfold Argument.bool
  cases arg.truth with
  | ok b => exact Uses.pure b
  | error type =>
    rintro _ s rfl
    exact ⟨Used.refl, trivial⟩

theorem Uses.saved {x : Op Printer Error Unit} (h : Uses call n x) : Uses call n (saved x) := by
  rintro _ s rfl
  have hx := h s s rfl
  unfold _details.saved
  cases hxs : x s with
  | mk r s' =>
    rw [hxs] at hx
    cases r with
    | ok _ => exact { hx with }
    | error e => exact ⟨{ hx.1 with }, hx.2⟩

end

theorem print_legacy_uses (call : Call) (leg : Legacy) (s : Printer) :
    Op.Spec (· = s) (saved (print_legacy call leg)) (fun _ s' => Used call s.count s s')
      (fun e s' => Used call s.count s s' ∧ e.About call s.count) := by
  have hset : ∀ d, Uses call s.count (set_repr d) := fun d =>
    Uses.modify fun t => ⟨rfl, rfl, rfl, fun _ => Or.inl⟩
  have hbody : Uses call s.count (saved do
      Op.modify fun t => { t with stream := t.stream.set leg }
      if leg.fmt = '%' then
        Op.modify fun t => { t with stream := t.stream.put '%' }
        set_repr s.stream.repr
      else
        (← nth call s.count).call
        set_repr s.stream.repr) := by
    refine Uses.saved
      (Uses.bind (Uses.modify fun t => ⟨rfl, rfl, rfl, fun _ => Or.inl⟩) fun _ => ?_)
    split
    · exact Uses.bind (Uses.modify fun t => ⟨rfl, rfl, rfl, fun _ => Or.inl⟩) fun _ => hset _
    · exact Uses.bind (Uses.nth call s.count) fun arg =>
        Uses.bind (Uses.operator arg) fun _ => hset _
  intro t ht
  subst ht
  exact hbody t t rfl

theorem print_percent_uses (call : Call) {leg : Legacy} (h : leg.fmt = '%') (n : Int) :
    Uses call n (saved (print_legacy call leg)) := by
  have hbody (t : Printer) : Uses call n (saved do
      Op.modify fun t => { t with stream := t.stream.set leg }
      Op.modify fun t => { t with stream := t.stream.put '%' }
      set_repr t.stream.repr) :=
    Uses.saved (Uses.bind (Uses.modify fun t => ⟨rfl, rfl, rfl, fun _ => Or.inl⟩) fun _ =>
      Uses.bind (Uses.modify fun t => ⟨rfl, rfl, rfl, fun _ => Or.inl⟩) fun _ =>
        Uses.modify fun t => ⟨rfl, rfl, rfl, fun _ => Or.inl⟩)
  rintro _ s rfl
  have := hbody s s s rfl
  unfold print_legacy
  simp only [h, if_true]
  exact this

/-! ## What a walk does -/

/-- A walk over the marks, to its end. -/
structure Walked (call : Call) (ms : List Mark) (s s' : Printer) : Prop where
  refs : ∃ new, s'.refs = s.refs ++ new ∧ Refers ms s.count new s'.count
  full : s'.full_positional = (s.full_positional && !ms.any Mark.placed)
  reads : ∀ i ∈ s'.reads, i ∈ s.reads ∨ (i ∈ s'.refs ∧ i < call.args.length)

/-- The error is about an argument that was referred to, or it is not one of the counts. -/
def Error.Own (call : Call) (refs : List Int) (e : Error) : Prop := ∃ n, e.About call n ∧
  ((∃ size expected, e = .too_few size expected) → n ∈ refs)

/-- A walk over the marks that an error ended. -/
structure Stopped (call : Call) (ms : List Mark) (s : Printer) (e : Error) (s' : Printer) :
    Prop where
  refs : ∃ done rest new k,
    ms = done ++ rest ∧ Refers done s.count new k ∧ s'.refs = s.refs ++ new
  own : e.Own call s'.refs
  reads : ∀ i ∈ s'.reads, i ∈ s.reads ∨ (i ∈ s'.refs ∧ i < call.args.length)

theorem Walked.nil : Walked call [] s s where
  refs := ⟨[], (List.append_nil _).symm, .nil⟩
  full := (Bool.and_true _).symm
  reads := fun _ => Or.inl

theorem Walked.trans (h : Walked call ms s s') (h' : Walked call ms' s' s'') :
    Walked call (ms ++ ms') s s'' := by
  obtain ⟨new, hnew, hrefers⟩ := h.refs
  obtain ⟨new', hnew', hrefers'⟩ := h'.refs
  refine ⟨⟨new ++ new', ?_, hrefers.append hrefers'⟩, ?_, ?_⟩
  · rw [hnew', hnew, List.append_assoc]
  · rw [h'.full, h.full, List.any_append, Bool.not_or, Bool.and_assoc]
  · intro i hi
    rcases h'.reads i hi with hi | hi
    · refine (h.reads i hi).imp id fun hi => ⟨?_, hi.2⟩
      rw [hnew']
      exact List.mem_append_left _ hi.1
    · exact Or.inr hi

theorem Walked.stopped {e : Error} (h : Walked call ms s s') (h' : Stopped call ms' s' e s'') :
    Stopped call (ms ++ ms') s e s'' := by
  obtain ⟨new, hnew, hrefers⟩ := h.refs
  obtain ⟨done, rest, new', k, hms', hrefers', hnew'⟩ := h'.refs
  refine ⟨⟨ms ++ done, rest, new ++ new', k, ?_, hrefers.append hrefers', ?_⟩, h'.own, ?_⟩
  · rw [hms', List.append_assoc]
  · rw [hnew', hnew, List.append_assoc]
  · intro i hi
    rcases h'.reads i hi with hi | hi
    · refine (h.reads i hi).imp id fun hi => ⟨?_, hi.2⟩
      rw [hnew']
      exact List.mem_append_left _ hi.1
    · exact Or.inr hi

theorem Stopped.append {e : Error} (h : Stopped call ms s e s') (ms' : List Mark) :
    Stopped call (ms ++ ms') s e s' := by
  obtain ⟨done, rest, new, k, hms, hrefers, hnew⟩ := h.refs
  exact ⟨⟨done, rest ++ ms', new, k, by rw [hms, List.append_assoc], hrefers, hnew⟩, h.own, h.reads⟩

/-- A program that walks over the marks. -/
def Walks (call : Call) (ms : List Mark) {α : Type} (x : Op Printer Error α) : Prop :=
  ∀ s, Op.Spec (· = s) x (fun _ s' => Walked call ms s s') (fun e s' => Stopped call ms s e s')

section

variable {α β : Type} {x : Op Printer Error α} {f : α → Op Printer Error β}

theorem Walks.bind (hx : Walks call ms x) (hf : ∀ a, Walks call ms' (f a)) :
    Walks call (ms ++ ms') (x >>= f) := by
  intro s
  have hx' : Op.Spec (· = s) x (fun _ s' => Walked call ms s s')
      (fun e s' => Stopped call (ms ++ ms') s e s') :=
    (hx s).weaken (fun _ => id) (fun _ _ => id) fun e s' h => h.append ms'
  refine Op.Spec.bind hx' fun a s' hs' => ?_
  refine Op.Spec.weaken (hf a s') (fun _ => id) ?_ ?_ s' rfl
  · intro b s'' h
    exact hs'.trans h
  · intro e s'' h
    exact hs'.stopped h

theorem Walks.pure (a : α) : Walks call [] (Pure.pure a : Op Printer Error α) := by
  rintro _ s rfl
  exact Walked.nil

theorem Walks.throw {e : Error} (h : ∀ refs, e.Own call refs) :
    Walks call ms (Op.throw e : Op Printer Error α) := by
  rintro _ s rfl
  exact ⟨⟨[], ms, [], s.count, rfl, .nil, (List.append_nil _).symm⟩, h _, fun _ => Or.inl⟩

theorem Walks.of_uses (h : ∀ n, Uses call n x) : Walks call [] x := by
  rintro _ s rfl
  have hlast := h call.args.length s s rfl
  have hbefore := h (-1) s s rfl
  have hreads : ∀ {s'}, Used call call.args.length s s' → ∀ i ∈ s'.reads,
      i ∈ s.reads ∨ (i ∈ s'.refs ∧ i < call.args.length) := fun hu i hi =>
    (hu.reads i hi).imp id fun hi => absurd hi.2 (Int.lt_irrefl _)
  cases hxs : x s with
  | mk r s' =>
    rw [hxs] at hlast hbefore
    cases r with
    | ok a =>
      refine ⟨⟨[], by rw [hlast.refs, List.append_nil], ?_⟩, ?_, hreads hlast⟩
      · rw [hlast.count]
        exact .nil
      · rw [hlast.full]
        exact (Bool.and_true _).symm
    | error e =>
      refine ⟨⟨[], [], [], s.count, rfl, .nil, by rw [hlast.1.refs, List.append_nil]⟩,
        ⟨-1, hbefore.2, ?_⟩, hreads hlast.1⟩
      rintro ⟨size, expected, rfl⟩
      have := hbefore.2.2.2
      omega

end

section

variable {α β : Type} {x : Op Printer Error α} {f : α → Op Printer Error β}
  {R : β → Printer → Prop} {E : Error → Printer → Prop}

theorem Uses.andThen (hx : Uses call n x)
    (hf : ∀ a s', Used call n s s' → Op.Spec (· = s') (f a) R E)
    (he : ∀ e s', Used call n s s' → e.About call n → E e s') :
    Op.Spec (· = s) (x >>= f) R E := by
  refine Op.Spec.bind (Op.Spec.weaken (hx s) (fun _ => id) (fun _ _ => id) fun e s' h =>
    he e s' h.1 h.2) fun a => ?_
  intro s' hs'
  exact hf a s' hs' s' rfl

theorem modify_andThen {g : Printer → Printer} {y : Op Printer Error β}
    (h : Op.Spec (· = g s) y R E) : Op.Spec (· = s) (Op.modify g >>= fun _ => y) R E := by
  rintro _ rfl
  exact h _ rfl

end

theorem Used.reads_of_refer {s₀ : Printer} (h : Used call n s s') (hs : s.refs = s₀.refs ++ [n])
    (hreads : s.reads = s₀.reads) :
    ∀ i ∈ s'.reads, i ∈ s₀.reads ∨ (i ∈ s'.refs ∧ i < call.args.length) := by
  intro i hi
  rcases h.reads i hi with hi | ⟨rfl, hlt⟩
  · exact Or.inl (hreads ▸ hi)
  · rw [h.refs, hs]
    exact Or.inr ⟨List.mem_append_right _ (List.mem_singleton_self _), hlt⟩

theorem Used.argument (h : Used call s.count (s.refer s.count) s') :
    Walked call [.argument] s s'.counted where
  refs := by
    refine ⟨[(s.count : Int)], h.refs, ?_⟩
    rw [show s'.counted.count = s.count + 1 from congrArg (· + 1) h.count]
    exact .argument .nil
  full := h.full.trans (Bool.and_true _).symm
  reads := h.reads_of_refer rfl rfl

theorem Used.argument_stopped {e : Error} (h : Used call s.count (s.refer s.count) s')
    (he : e.About call s.count) : Stopped call [.argument] s e s' where
  refs := ⟨[.argument], [], [(s.count : Int)], s.count + 1, rfl, .argument .nil, h.refs⟩
  own := by
    refine ⟨s.count, he, fun _ => ?_⟩
    rw [h.refs]
    exact List.mem_append_right _ (List.mem_singleton_self _)
  reads := h.reads_of_refer rfl rfl

theorem Used.index {full : Bool} (condition : Bool)
    (h : Used call n (({ s with full_positional := full } : Printer).refer n) s')
    (hfull : full = (s.full_positional && !(Mark.index condition n).placed)) :
    Walked call [.index condition n] s s' where
  refs := by
    refine ⟨[n], h.refs, ?_⟩
    rw [h.count]
    exact .index .nil
  full := by
    rw [h.full, List.any_cons, List.any_nil, Bool.or_false]
    exact hfull
  reads := h.reads_of_refer rfl rfl

theorem Used.index_stopped {full : Bool} {e : Error} (condition : Bool)
    (h : Used call n (({ s with full_positional := full } : Printer).refer n) s')
    (he : e.About call n) : Stopped call [.index condition n] s e s' where
  refs := ⟨[.index condition n], [], [n], s.count, rfl, .index .nil, h.refs⟩
  own := by
    refine ⟨n, he, fun _ => ?_⟩
    rw [h.refs]
    exact List.mem_append_right _ (List.mem_singleton_self _)
  reads := h.reads_of_refer rfl rfl

theorem counted_spec {α : Type} {R : α → Printer → Prop} {E : Error → Printer → Prop} {a : α}
    (h : R a s.counted) :
    Op.Spec (· = s) (do Op.modify Printer.counted; pure a : Op Printer Error α) R E := by
  rintro _ rfl
  exact h

theorem print_var_walks (call : Call) (p : Bool) (v : Var) :
    Walks call (v.marks false) (print_var call p v) := by
  cases v with
  | next =>
    intro s
    refine Op.Spec.get_bind ?_
    rintro _ rfl
    refine modify_andThen ?_
    cases p with
    | false =>
      exact modify_andThen fun _ h => by subst h; exact Used.refl.argument
    | true =>
      refine (Uses.nth call _).andThen (fun arg s' h => ?_) fun e s' h he => h.argument_stopped he
      refine (Uses.operator arg).andThen (fun _ s'' h' => ?_) fun e s'' h' he =>
        (h.trans h').argument_stopped he
      rintro _ rfl
      exact (h.trans h').argument
  | index n =>
    intro s
    refine modify_andThen (modify_andThen ?_)
    cases p with
    | false =>
      rintro _ rfl
      exact Used.refl.index false (Bool.and_false _).symm
    | true =>
      have huse : Uses call n (do (← nth call n).call) :=
        Uses.bind (Uses.nth call n) Uses.operator
      refine Op.Spec.weaken (huse _) (fun _ => id) (fun _ s' h => ?_) fun e s' h => ?_
      · exact h.index false (Bool.and_false _).symm
      · exact h.1.index_stopped false h.2
  | name n =>
    unfold print_var
    dsimp only
    split
    · exact Walks.throw fun refs => ⟨0, trivial, fun ⟨_, _, h⟩ => by cases h⟩
    · split
      · exact Walks.of_uses fun n => Uses.operator _
      · exact Walks.pure ()

theorem test_walks (call : Call) (p : Bool) (v : Var) :
    Walks call (v.marks true) (test call p v) := by
  cases v with
  | next =>
    intro s
    refine Op.Spec.get_bind ?_
    rintro _ rfl
    refine modify_andThen ?_
    cases p with
    | false => exact modify_andThen fun _ h => by subst h; exact Used.refl.argument
    | true =>
      have huse (t : Printer) : Uses call t.count (do (← nth call t.count).bool) :=
        Uses.bind (Uses.nth call _) Uses.bool
      refine (huse _).andThen (fun q s' h => ?_) fun e s' h he => h.argument_stopped he
      exact counted_spec h.argument
  | index n =>
    intro s
    refine modify_andThen ?_
    cases p with
    | false =>
      rintro _ rfl
      exact Used.refl.index true (Bool.and_true _).symm
    | true =>
      have huse : Uses call n (do (← nth call n).bool) := Uses.bind (Uses.nth call n) Uses.bool
      refine Op.Spec.weaken (huse _) (fun _ => id) (fun _ s' h => ?_) fun e s' h => ?_
      · exact h.index true (Bool.and_true _).symm
      · exact h.1.index_stopped true h.2
  | name n =>
    unfold test
    dsimp only
    split
    · exact Walks.throw fun refs => ⟨0, trivial, fun ⟨_, _, h⟩ => by cases h⟩
    · split
      · exact Walks.of_uses fun n => Uses.bool _
      · exact Walks.pure _

theorem Walked.percent (h : Walked call [] s s') : Walked call [.percent] s s' where
  refs := by
    obtain ⟨new, hnew, hrefers⟩ := h.refs
    exact ⟨new, hnew, .printed hrefers⟩
  full := h.full
  reads := h.reads

theorem percent_skipped : Walked call [.percent] s s.counted where
  refs := ⟨[], (List.append_nil _).symm, .skipped .nil⟩
  full := (Bool.and_true _).symm
  reads := fun _ => Or.inl

theorem print_item_walks (call : Call) {p inside : Bool} (h : p = true ∨ inside = true) (i : Item) :
    Walks call (i.marks inside) (print_item call p i) := by
  cases i with
  | literal text =>
    unfold print_item
    dsimp only
    split
    · exact Walks.of_uses fun n => Uses.modify fun t => ⟨rfl, rfl, rfl, fun _ => Or.inl⟩
    · exact Walks.pure ()
  | var v => exact print_var_walks call p v
  | legacy leg =>
    by_cases hfmt : leg.fmt = '%'
    · cases p with
      | true =>
        have heq : print_item call true (.legacy leg) = (do
            let _ ← Op.get
            saved (print_legacy call leg)
            pure ()) := by simp [print_item, hfmt]
        have hwalks : Walks call [] (print_item call true (.legacy leg)) := by
          rw [heq]
          exact Walks.of_uses fun n s t ht =>
            Uses.bind (print_percent_uses call hfmt n) (fun _ => Uses.pure ()) s t ht
        cases inside with
        | false =>
          have hms : (Item.legacy leg).marks false = [] := by simp [Item.marks, hfmt]
          rw [hms]
          exact hwalks
        | true =>
          have hms : (Item.legacy leg).marks true = [.percent] := by simp [Item.marks, hfmt]
          rw [hms]
          intro s
          exact (hwalks s).weaken (fun _ => id) (fun _ _ h => h.percent)
            fun _ _ h => h.append [.percent]
      | false =>
        obtain rfl : inside = true := by simpa using h
        have hms : (Item.legacy leg).marks true = [.percent] := by simp [Item.marks, hfmt]
        have heq : print_item call false (.legacy leg) = (do
            let _ ← Op.get
            Op.modify Printer.counted) := by simp [print_item, hfmt]
        rw [hms, heq]
        rintro _ s rfl
        exact percent_skipped
    · have hms : (Item.legacy leg).marks inside = [.argument] := by
        simp only [Item.marks, hfmt, if_false]
      rw [hms]
      cases p with
      | true =>
        have heq : print_item call true (.legacy leg) = (do
            let s ← Op.get
            Op.modify (Printer.refer s.count)
            saved (print_legacy call leg)
            Op.modify Printer.counted) := by simp [print_item, hfmt]
        rw [heq]
        intro s
        refine Op.Spec.get_bind ?_
        rintro _ rfl
        refine modify_andThen ?_
        refine Op.Spec.bind (Op.Spec.weaken (print_legacy_uses call leg _) (fun _ => id)
          (fun _ _ => id) fun e s' h => Used.argument_stopped h.1 h.2) fun _ => ?_
        intro s' h
        exact Used.argument h
      | false =>
        have heq : print_item call false (.legacy leg) = (do
            let s ← Op.get
            Op.modify (Printer.refer s.count)
            Op.modify Printer.counted) := by simp [print_item, hfmt]
        rw [heq]
        rintro _ s rfl
        exact Used.refl.argument

theorem print_ast_walks (call : Call) {p : Bool} (inside : Bool) (h : p = true ∨ inside = true)
    (ast : Phrase) : Walks call (ast.marks inside) (print_ast call p ast) := by
  induction ast generalizing p inside with
  | nil => exact Walks.pure ()
  | item i rest ih => exact Walks.bind (print_item_walks call h i) fun _ => ih inside h
  | branch cond then_ rest ih ih' =>
    exact Walks.bind (test_walks call p cond) fun q =>
      Walks.bind (ih true (Or.inr rfl)) fun _ => ih' inside h

/-! ## Calls that go well -/

def Var.names : Var → List (List Char)
  | .name n => [n]
  | .index _ | .next => []

def Item.names : Item → List (List Char)
  | .var v => v.names
  | .literal _ | .legacy _ => []

def Phrase.names : Phrase → List (List Char)
  | .nil => []
  | .item i rest => i.names ++ rest.names
  | .branch cond then_ rest => cond.names ++ (then_.names ++ rest.names)

/-- An argument that prints nothing. -/
def plain (b : Bool) : Argument := { print := pure (), truth := .ok b }

/-- Arguments that all have the same truth value. -/
def plain_call (b : Bool) (size : Nat) (names : List (List Char)) : Call :=
  { args := List.replicate size (plain b)
    named := names.map fun n => (n, plain b)
    before := fun _ => plain b }

/-- How far the count goes, where every percent sign counts or none does. -/
def spent (counts : Bool) (ms : List Mark) : Nat :=
  arguments ms + if counts then ms.count .percent else 0

theorem spent_append (b : Bool) (ms ms' : List Mark) :
    spent b (ms ++ ms') = spent b ms + spent b ms' := by
  unfold spent arguments
  rw [List.count_append, List.count_append]
  split <;> omega

theorem spent_le_length (b : Bool) (ms : List Mark) : spent b ms ≤ ms.length := by
  induction ms with
  | nil => cases b <;> exact Nat.le_refl _
  | cons m ms ih =>
    have happ := spent_append b [m] ms
    have hone : spent b [m] ≤ 1 := by cases m <;> cases b <;> simp [spent, arguments]
    rw [List.singleton_append] at happ
    rw [happ, List.length_cons]
    omega

theorem number_append (b : Bool) (ms ms' : List Mark) (k : Nat) :
    number b k (ms ++ ms') = number b k ms ++ number b (k + spent b ms) ms' := by
  induction ms generalizing k with
  | nil => cases b <;> rfl
  | cons m ms ih =>
    have happ : spent b (m :: ms) = spent b [m] + spent b ms := spent_append b [m] ms
    rw [happ, ← Nat.add_assoc]
    cases m with
    | argument => cases b <;> exact congrArg _ (ih (k + 1))
    | index condition n => cases b <;> exact congrArg _ (ih k)
    | percent => cases b <;> exact ih _

theorem number_length (b c : Bool) (k k' : Nat) (ms : List Mark) :
    (number b k ms).length = (number c k' ms).length := by
  induction ms generalizing k k' with
  | nil => rfl
  | cons m ms ih =>
    cases m with
    | argument => exact congrArg (· + 1) (ih _ _)
    | index condition n => exact congrArg (· + 1) (ih _ _)
    | percent => exact ih _ _

/-- A walk in which every branch is taken, or none is. -/
structure Plainly (b : Bool) (ms : List Mark) (s s' : Printer) : Prop where
  refs : s'.refs = s.refs ++ number (!b) s.count ms
  count : s'.count = s.count + spent (!b) ms
  reads : b = true → s'.reads = s.reads ++ number false s.count ms

theorem Plainly.nil (b : Bool) (s : Printer) : Plainly b [] s s where
  refs := (List.append_nil _).symm
  count := by cases b <;> rfl
  reads := fun _ => (List.append_nil _).symm

theorem Plainly.trans {b : Bool} (h : Plainly b ms s s') (h' : Plainly b ms' s' s'') :
    Plainly b (ms ++ ms') s s'' where
  refs := by rw [h'.refs, h.refs, h.count, number_append, List.append_assoc]
  count := by rw [h'.count, h.count, spent_append, Nat.add_assoc]
  reads := by
    rintro rfl
    rw [h'.reads rfl, h.reads rfl, h.count, number_append, List.append_assoc]
    rfl

/-- The program returns, and walks so. -/
def Goes (b : Bool) (ms : List Mark) {α : Type} (a : α) (x : Op Printer Error α) (s : Printer) :
    Prop :=
  ∃ s', x s = (.ok a, s') ∧ Plainly b ms s s'

theorem Goes.bind {α β : Type} {b : Bool} {a : α} {c : β} {x : Op Printer Error α}
    {f : α → Op Printer Error β} (hx : Goes b ms a x s)
    (hf : ∀ s', Plainly b ms s s' → Goes b ms' c (f a) s') : Goes b (ms ++ ms') c (x >>= f) s := by
  obtain ⟨s', hs', hp⟩ := hx
  obtain ⟨s'', hs'', hp'⟩ := hf s' hp
  exact ⟨s'', by rw [Op.bind_of_ok hs', hs''], hp.trans hp'⟩

section

variable {b : Bool} {size : Nat} {names : List (List Char)}

theorem plain_call_arg (b : Bool) (size : Nat) (names : List (List Char)) (n : Int) :
    (plain_call b size names).arg n = plain b := by
  unfold Call.arg plain_call
  dsimp only
  split
  · rfl
  · rw [List.getD_eq_getElem?_getD, List.getElem?_replicate]
    split <;> rfl

theorem plain_call_nth (b : Bool) (names : List (List Char)) (h : n < size) (s : Printer) :
    nth (plain_call b size names) n s = (.ok (plain b), s.read n) := by
  unfold nth
  have hlen : (plain_call b size names).args.length = size := List.length_replicate
  rw [hlen, if_pos h, plain_call_arg]
  rfl

theorem plain_call_lookup (b : Bool) (size : Nat) {name : List Char} (h : name ∈ names) :
    (plain_call b size names).named.lookup name = some (plain b) := by
  unfold plain_call
  dsimp only
  induction names with
  | nil => cases h
  | cons n names ih =>
    rw [List.map_cons, List.lookup_cons]
    by_cases hn : name = n
    · rw [beq_iff_eq.2 hn]
    · rw [beq_false_of_ne hn]
      exact ih ((List.mem_cons.1 h).resolve_left hn)

/-- The list and the names are long enough for the format. -/
structure Fits (size : Nat) (names : List (List Char)) (ms : List Mark) (ns : List (List Char))
    (k : Nat) : Prop where
  count : k + ms.length ≤ size
  index : ∀ condition n, Mark.index condition n ∈ ms → n < size
  names : ∀ n ∈ ns, n ∈ names

theorem Fits.left {ns ns' : List (List Char)} (h : Fits size names (ms ++ ms') (ns ++ ns') k) :
    Fits size names ms ns k where
  count := by
    have := h.count
    rw [List.length_append] at this
    omega
  index := fun condition n hn => h.index condition n (List.mem_append_left _ hn)
  names := fun n hn => h.names n (List.mem_append_left _ hn)

theorem Fits.right {ns ns' : List (List Char)} (h : Fits size names (ms ++ ms') (ns ++ ns') s.count)
    (hp : Plainly b ms s s') : Fits size names ms' ns' s'.count where
  count := by
    have := h.count
    have := spent_le_length (!b) ms
    rw [List.length_append] at *
    rw [hp.count]
    omega
  index := fun condition n hn => h.index condition n (List.mem_append_right _ hn)
  names := fun n hn => h.names n (List.mem_append_right _ hn)

theorem print_var_goes (v : Var) (inside : Bool)
    (h : Fits size names (v.marks false) v.names s.count) :
    Goes b (v.marks false) () (print_var (plain_call b size names) (b || !inside) v) s := by
  cases v with
  | next =>
    have hlt : (s.count : Int) < size := by
      have := h.count
      simp only [Var.marks, List.length_singleton] at this
      omega
    cases hp : b || !inside with
    | false =>
      obtain ⟨rfl, -⟩ : b = false ∧ inside = true := by simpa using hp
      exact ⟨_, rfl, rfl, rfl, fun hb => by cases hb⟩
    | true =>
      have hrun : print_var (plain_call b size names) true .next s
          = (.ok (), ((s.refer s.count).read s.count).counted) := by
        have hnth := plain_call_nth b names hlt (s.refer s.count)
        change (Op.modify (Printer.refer s.count) >>= fun _ =>
          nth (plain_call b size names) s.count >>= fun arg => arg.call >>= fun _ =>
            Op.modify Printer.counted) s = _
        rw [Op.bind_of_ok (Op.modify_apply _ _), Op.bind_of_ok hnth]
        rfl
      exact ⟨_, hrun, by cases b <;> rfl, by cases b <;> rfl, fun _ => rfl⟩
  | index n =>
    have hlt : n < size := h.index false n (List.mem_singleton_self _)
    cases hp : b || !inside with
    | false =>
      obtain ⟨rfl, -⟩ : b = false ∧ inside = true := by simpa using hp
      exact ⟨_, rfl, rfl, rfl, fun hb => by cases hb⟩
    | true =>
      have hrun : print_var (plain_call b size names) true (.index n) s
          = (.ok (), (({ s with full_positional := false } : Printer).refer n).read n) := by
        have hnth := plain_call_nth b names hlt
          (({ s with full_positional := false } : Printer).refer n)
        change ((nth (plain_call b size names) n >>= fun arg => arg.call) : Op Printer Error Unit)
          (({ s with full_positional := false } : Printer).refer n) = _
        rw [Op.bind_of_ok hnth]
        rfl
      exact ⟨_, hrun, by cases b <;> rfl, by cases b <;> rfl, fun _ => rfl⟩
  | name n =>
    have hlookup := plain_call_lookup b size (h.names n (List.mem_singleton_self _))
    have hrun : print_var (plain_call b size names) (b || !inside) (.name n) s = (.ok (), s) := by
      simp only [print_var, hlookup]
      cases b || !inside <;> rfl
    exact ⟨s, hrun, Plainly.nil b s⟩

theorem test_goes (v : Var) (inside : Bool) (h : Fits size names (v.marks true) v.names s.count) :
    Goes b (v.marks true) b (test (plain_call b size names) (b || !inside) v) s := by
  cases v with
  | next =>
    have hlt : (s.count : Int) < size := by
      have := h.count
      simp only [Var.marks, List.length_singleton] at this
      omega
    cases hp : b || !inside with
    | false =>
      obtain ⟨rfl, -⟩ : b = false ∧ inside = true := by simpa using hp
      exact ⟨_, rfl, rfl, rfl, fun hb => by cases hb⟩
    | true =>
      have hrun : test (plain_call b size names) true .next s
          = (.ok b, ((s.refer s.count).read s.count).counted) := by
        have hnth := plain_call_nth b names hlt (s.refer s.count)
        change ((nth (plain_call b size names) s.count >>= fun arg => arg.bool) >>= fun q =>
          Op.modify Printer.counted >>= fun _ => pure q : Op Printer Error Bool)
            (s.refer s.count) = _
        have htruth : ((nth (plain_call b size names) s.count >>= fun arg => arg.bool) :
            Op Printer Error Bool) (s.refer s.count) = (.ok b, (s.refer s.count).read s.count) := by
          rw [Op.bind_of_ok hnth]
          rfl
        rw [Op.bind_of_ok htruth]
        rfl
      exact ⟨_, hrun, by cases b <;> rfl, by cases b <;> rfl, fun _ => rfl⟩
  | index n =>
    have hlt : n < size := h.index true n (List.mem_singleton_self _)
    cases hp : b || !inside with
    | false =>
      obtain ⟨rfl, -⟩ : b = false ∧ inside = true := by simpa using hp
      exact ⟨_, rfl, rfl, rfl, fun hb => by cases hb⟩
    | true =>
      have hrun : test (plain_call b size names) true (.index n) s
          = (.ok b, (s.refer n).read n) := by
        have hnth := plain_call_nth b names hlt (s.refer n)
        change ((nth (plain_call b size names) n >>= fun arg => arg.bool) : Op Printer Error Bool)
          (s.refer n) = _
        rw [Op.bind_of_ok hnth]
        rfl
      exact ⟨_, hrun, by cases b <;> rfl, by cases b <;> rfl, fun _ => rfl⟩
  | name n =>
    have hlookup := plain_call_lookup b size (h.names n (List.mem_singleton_self _))
    cases hp : b || !inside with
    | false =>
      obtain ⟨rfl, -⟩ : b = false ∧ inside = true := by simpa using hp
      have hrun : test (plain_call false size names) false (.name n) s = (.ok false, s) := by
        simp only [test, hlookup]
        rfl
      exact ⟨s, hrun, Plainly.nil false s⟩
    | true =>
      have hrun : test (plain_call b size names) true (.name n) s = (.ok b, s) := by
        simp only [test, hlookup]
        rfl
      exact ⟨s, hrun, Plainly.nil b s⟩

theorem print_legacy_goes (b : Bool) (names : List (List Char)) {leg : Legacy}
    (hfmt : leg.fmt ≠ '%') (hlt : (s.count : Int) < size) :
    ∃ stream, saved (print_legacy (plain_call b size names) leg) s
      = (.ok (), { s.read s.count with stream := stream }) := by
  have hnth := plain_call_nth b names hlt { s with stream := s.stream.set leg }
  have hrun : print_legacy (plain_call b size names) leg s
      = set_repr s.stream.repr (Printer.read s.count { s with stream := s.stream.set leg }) := by
    unfold print_legacy
    simp only [hfmt, if_false]
    change ((nth (plain_call b size names) s.count >>= fun arg => arg.call >>= fun _ =>
      set_repr s.stream.repr) : Op Printer Error Unit) { s with stream := s.stream.set leg } = _
    rw [Op.bind_of_ok hnth]
    rfl
  unfold saved
  rw [hrun]
  exact ⟨_, rfl⟩

theorem print_percent_goes (call : Call) {leg : Legacy} (hfmt : leg.fmt = '%') (s : Printer) :
    ∃ stream, saved (print_legacy call leg) s = (.ok (), { s with stream := stream }) := by
  unfold saved print_legacy
  simp only [hfmt, if_true]
  exact ⟨_, rfl⟩

theorem print_item_goes (i : Item) (inside : Bool)
    (h : Fits size names (i.marks inside) i.names s.count) :
    Goes b (i.marks inside) () (print_item (plain_call b size names) (b || !inside) i) s := by
  cases i with
  | literal text =>
    unfold print_item
    dsimp only
    split
    · exact ⟨_, rfl, (Plainly.nil b s).refs, (Plainly.nil b s).count, (Plainly.nil b s).reads⟩
    · exact ⟨_, rfl, Plainly.nil b s⟩
  | var v => exact print_var_goes v inside h
  | legacy leg =>
    by_cases hfmt : leg.fmt = '%'
    · cases hp : b || !inside with
      | false =>
        obtain ⟨rfl, rfl⟩ : b = false ∧ inside = true := by simpa using hp
        have hms : (Item.legacy leg).marks true = [.percent] := by simp [Item.marks, hfmt]
        rw [hms]
        have hrun : print_item (plain_call false size names) false (.legacy leg) s
            = (.ok (), s.counted) := by
          simp only [print_item, hfmt]
          rfl
        exact ⟨_, hrun, (List.append_nil _).symm, rfl, fun hb => by cases hb⟩
      | true =>
        obtain ⟨stream, hstream⟩ := print_percent_goes (plain_call b size names) hfmt s
        have hrun : print_item (plain_call b size names) true (.legacy leg) s
            = (.ok (), { s with stream := stream }) := by
          have heq : print_item (plain_call b size names) true (.legacy leg) = (do
              let _ ← Op.get
              saved (print_legacy (plain_call b size names) leg)
              pure ()) := by simp [print_item, hfmt]
          rw [heq, Op.bind_of_ok (Op.get_apply s), Op.bind_of_ok hstream]
          rfl
        refine ⟨_, hrun, ?_⟩
        cases inside with
        | false =>
          have hms : (Item.legacy leg).marks false = [] := by simp [Item.marks, hfmt]
          rw [hms]
          exact ⟨(Plainly.nil b s).refs, (Plainly.nil b s).count, (Plainly.nil b s).reads⟩
        | true =>
          have hms : (Item.legacy leg).marks true = [.percent] := by simp [Item.marks, hfmt]
          obtain rfl : b = true := by simpa using hp
          rw [hms]
          exact ⟨(List.append_nil _).symm, rfl, fun _ => (List.append_nil _).symm⟩
    · have hms : (Item.legacy leg).marks inside = [.argument] := by
        simp only [Item.marks, hfmt, if_false]
      rw [hms] at h ⊢
      have hlt : (s.count : Int) < size := by
        have := h.count
        simp only [List.length_singleton] at this
        omega
      cases hp : b || !inside with
      | false =>
        obtain ⟨rfl, rfl⟩ : b = false ∧ inside = true := by simpa using hp
        have heq : print_item (plain_call false size names) false (.legacy leg) = (do
            let s ← Op.get
            Op.modify (Printer.refer s.count)
            Op.modify Printer.counted) := by simp [print_item, hfmt]
        rw [heq]
        exact ⟨_, rfl, rfl, rfl, fun hb => by cases hb⟩
      | true =>
        obtain ⟨stream, hstream⟩ := print_legacy_goes b names
          (s := s.refer s.count) hfmt hlt
        have hrun : print_item (plain_call b size names) true (.legacy leg) s
            = (.ok (),
              ({ (s.refer s.count).read s.count with stream := stream } : Printer).counted) := by
          have heq : print_item (plain_call b size names) true (.legacy leg) = (do
              let s ← Op.get
              Op.modify (Printer.refer s.count)
              saved (print_legacy (plain_call b size names) leg)
              Op.modify Printer.counted) := by simp [print_item, hfmt]
          rw [heq, Op.bind_of_ok (Op.get_apply s), Op.bind_of_ok (Op.modify_apply _ _),
            Op.bind_of_ok hstream]
          rfl
        exact ⟨_, hrun, by cases b <;> rfl, by cases b <;> rfl, fun _ => rfl⟩

theorem print_ast_goes (ast : Phrase) (inside : Bool)
    (h : Fits size names (ast.marks inside) ast.names s.count) :
    Goes b (ast.marks inside) () (print_ast (plain_call b size names) (b || !inside) ast) s := by
  induction ast generalizing inside s with
  | nil => exact ⟨s, rfl, Plainly.nil b s⟩
  | item i rest ih =>
    exact Goes.bind (print_item_goes i inside h.left) fun s' hp => ih inside (h.right hp)
  | branch cond then_ rest ih ih' =>
    refine Goes.bind (test_goes cond inside h.left) fun s' hp => ?_
    have hthen := ih true (h.right hp).left
    rw [Bool.not_true, Bool.or_false] at hthen
    exact Goes.bind hthen fun s'' hp' => ih' inside ((h.right hp).right hp')

end

end elle._details
