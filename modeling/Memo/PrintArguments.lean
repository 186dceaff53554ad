-- Which arguments the placeholders of a format stand for, and what the check
-- of their number is worth.
import Memo.PrintWalks

open ops

namespace elle._details

variable {ms : List Mark} {k k' : Nat} {refs : List Int} {call : Call} {s s' : Printer} {n : Int}

/-- A stream as it is made. -/
def fresh : Stream := ⟨[], ⟨.right, false, 0, ' ', .dec, .general⟩, false⟩

/-! ## The references of a call -/

/-- The arguments that the placeholders, the requests and the conditions of a format stood for,
in their order, as far as the call went. -/
def references (o : Stream) (fmt : List Char) (call : Call) : List Int :=
  (print fmt call (.start o)).2.refs

/-- Whatever the values of the arguments, a placeholder stands for the same one. -/
def Unmoved (fmt : List Char) : Prop :=
  ∀ (o o' : Stream) (call call' : Call), call.args.length = call'.args.length →
    call.named.map Prod.fst = call'.named.map Prod.fst →
    references o fmt call <+: references o' fmt call' ∨
      references o' fmt call' <+: references o fmt call

theorem print_eq {fmt : List Char} {ast : Phrase} (h : parse fmt = .ok ast) (call : Call)
    (s : Printer) :
    print fmt call s = (print_ast call true ast >>= fun _ => check_remaining fmt call) s := by
  unfold print
  rw [h]
  rfl

theorem print_state {fmt : List Char} {ast : Phrase} (h : parse fmt = .ok ast) (call : Call)
    (s : Printer) : (print fmt call s).2 = (print_ast call true ast s).2 := by
  rw [print_eq h]
  cases hrun : print_ast call true ast s with
  | mk r s' =>
    cases r with
    | error e => rw [Op.bind_of_error hrun]
    | ok u =>
      rw [Op.bind_of_ok hrun]
      unfold check_remaining
      rw [Op.bind_of_ok (Op.get_apply s')]
      split <;> rfl

theorem references_eq {fmt : List Char} {ast : Phrase} (h : parse fmt = .ok ast) (o : Stream)
    (call : Call) : references o fmt call = (print_ast call true ast (.start o)).2.refs :=
  congrArg Printer.refs (print_state h call (.start o))

theorem print_of_error {fmt : List Char} {ast : Phrase} (h : parse fmt = .ok ast) {e : Error}
    (hrun : print_ast call true ast s = (.error e, s')) : (print fmt call s).1 = .error e := by
  rw [print_eq h, Op.bind_of_error hrun]

theorem print_of_ok {fmt : List Char} {ast : Phrase} (h : parse fmt = .ok ast)
    (hrun : print_ast call true ast s = (.ok (), s')) :
    (print fmt call s).1 = if s'.full_positional ∧ s'.count < call.args.length then
      .error (.too_many call.args.length s'.count fmt) else .ok () := by
  rw [print_eq h, Op.bind_of_ok hrun]
  unfold check_remaining
  rw [Op.bind_of_ok (Op.get_apply s')]
  split <;> rfl

theorem references_settled {fmt : List Char} {ast : Phrase} (h : parse fmt = .ok ast)
    (hs : Settled (ast.marks false)) (o : Stream) (call : Call) :
    references o fmt call <+: number false 0 (ast.marks false) := by
  rw [references_eq h]
  have hwalk := print_ast_walks call false (Or.inl rfl) ast (.start o) _ rfl
  cases hrun : print_ast call true ast (.start o) with
  | mk r s =>
    rw [hrun] at hwalk
    cases r with
    | ok u =>
      obtain ⟨new, hnew, hrefers⟩ := hwalk.refs
      rw [hnew, hrefers.eq_number hs]
      exact List.prefix_rfl
    | error e =>
      obtain ⟨done, rest, new, k, hms, hrefers, hnew⟩ := hwalk.refs
      rw [hms] at hs ⊢
      rw [hnew, hrefers.eq_number (List.pairwise_append.1 hs).1, number_append]
      exact List.prefix_append _ _

theorem references_plain {fmt : List Char} {ast : Phrase} (h : parse fmt = .ok ast) (b : Bool)
    {size : Nat} (o : Stream)
    (hfits : Fits size ast.names (ast.marks false) ast.names 0) :
    references o fmt (plain_call b size ast.names) = number (!b) 0 (ast.marks false) := by
  rw [references_eq h]
  obtain ⟨s, hrun, hp⟩ := print_ast_goes (b := b) (s := .start o) ast false hfits
  rw [Bool.not_false, Bool.or_true] at hrun
  rw [hrun]
  exact hp.refs

theorem exists_size (ms : List Mark) (least : Nat) :
    ∃ size, least ≤ size ∧ ∀ condition n, Mark.index condition n ∈ ms → n < size := by
  induction ms with
  | nil => exact ⟨least, Nat.le_refl _, fun _ _ h => nomatch h⟩
  | cons m ms ih =>
    obtain ⟨size, hle, hindex⟩ := ih
    cases m with
    | index condition i =>
      refine ⟨size + i.toNat + 1, by omega, fun condition' n hn => ?_⟩
      rcases List.mem_cons.1 hn with hn | hn
      · cases hn
        omega
      · have := hindex condition' n hn
        omega
    | argument | percent =>
      refine ⟨size, hle, fun condition' n hn => ?_⟩
      rcases List.mem_cons.1 hn with hn | hn
      · cases hn
      · exact hindex condition' n hn

/-- The arguments do not move if and only if none of them is for what follows a percent sign that
stands in a branch. -/
theorem arguments_do_not_move_iff {fmt : List Char} {ast : Phrase} (h : parse fmt = .ok ast) :
    Unmoved fmt ↔ Settled (ast.marks false) := by
  constructor
  · intro hu
    obtain ⟨size, hle, hindex⟩ := exists_size (ast.marks false) (ast.marks false).length
    have hfits : Fits size ast.names (ast.marks false) ast.names 0 :=
      ⟨by omega, hindex, fun _ => id⟩
    have hlen : (plain_call true size ast.names).args.length
        = (plain_call false size ast.names).args.length := by
      simp only [plain_call, List.length_replicate]
    have hnames : (plain_call true size ast.names).named.map Prod.fst
        = (plain_call false size ast.names).named.map Prod.fst := by
      simp only [plain_call, List.map_map, Function.comp_def]
    have hpre := hu fresh fresh _ _ hlen hnames
    rw [references_plain h true fresh hfits, references_plain h false fresh hfits] at hpre
    have hsame : (number false 0 (ast.marks false)).length
        = (number true 0 (ast.marks false)).length := number_length _ _ _ _ _
    apply number_injective (k := 0)
    rcases hpre with hpre | hpre
    · exact hpre.eq_of_length hsame
    · exact (hpre.eq_of_length hsame.symm).symm
  · intro hs o o' call call' _ _
    exact List.prefix_or_prefix_of_prefix (references_settled h hs o call)
      (references_settled h hs o' call')

/-- `{?{}}%%{}`, where the percent sign stands in no branch. -/
theorem a_printed_percent_sign_moves_nothing :
    Unmoved ['{', '?', '{', '}', '}', '%', '%', '{', '}'] :=
  (arguments_do_not_move_iff rfl).2 (by decide)

/-- `{?%%}{}` prints its second argument where the first one is true, and its third one where it
is false. -/
theorem a_skipped_percent_sign_moves_an_argument :
    references fresh ['{', '?', '%', '%', '}', '{', '}'] (plain_call true 3 []) = [0, 1] ∧
    references fresh ['{', '?', '%', '%', '}', '{', '}'] (plain_call false 3 []) = [0, 2] ∧
    ¬ ∀ fmt ast, parse fmt = .ok ast → Unmoved fmt := by
  have htrue : references fresh ['{', '?', '%', '%', '}', '{', '}'] (plain_call true 3 [])
      = [0, 1] := by decide
  have hfalse : references fresh ['{', '?', '%', '%', '}', '{', '}'] (plain_call false 3 [])
      = [0, 2] := by decide
  refine ⟨htrue, hfalse, fun hall => ?_⟩
  have hpre := hall ['{', '?', '%', '%', '}', '{', '}'] _ rfl fresh fresh (plain_call true 3 [])
    (plain_call false 3 []) rfl rfl
  rw [htrue, hfalse] at hpre
  revert hpre
  decide

/-! ## The check of the arguments -/

/-- More arguments than the format takes, which has no index. -/
def Surplus (call : Call) (ms : List Mark) : Prop :=
  (∀ m ∈ ms, m.indexed = false) ∧ arguments ms < call.args.length

/-- The call reads its list only, and says that there are too many arguments exactly where there
are, unless another error than a lack of arguments came first. -/
structure Exact (o : Stream) (fmt : List Char) (ast : Phrase) (call : Call) : Prop where
  reads : ∀ n ∈ (print fmt call (.start o)).2.reads, 0 ≤ n ∧ n < call.args.length
  reported : (∃ size count f, (print fmt call (.start o)).1 = .error (.too_many size count f)) →
    Surplus call (ast.marks false)
  surplus : Surplus call (ast.marks false) → ∃ e, (print fmt call (.start o)).1 = .error e ∧
    ∀ size expected, e ≠ .too_few size expected

/-- No index is negative, and either a placeholder has an index, or no condition has one and no
percent sign stands in a branch. -/
def Checked (ms : List Mark) : Prop :=
  (∀ condition n, Mark.index condition n ∈ ms → 0 ≤ n) ∧
    ((∃ n, Mark.index false n ∈ ms) ∨ ((∀ n, Mark.index true n ∉ ms) ∧ Mark.percent ∉ ms))

theorem Refers.nonneg (h : Refers ms k refs k')
    (hms : ∀ condition n, Mark.index condition n ∈ ms → 0 ≤ n) : ∀ n ∈ refs, 0 ≤ n := by
  induction h with
  | nil =>
    intro n hn
    cases hn
  | argument _ ih =>
    intro n hn
    rcases List.mem_cons.1 hn with rfl | hn
    · exact Int.natCast_nonneg _
    · exact ih (fun condition i hi => hms condition i (List.mem_cons_of_mem _ hi)) n hn
  | index _ ih =>
    intro n hn
    rcases List.mem_cons.1 hn with rfl | hn
    · exact hms _ _ List.mem_cons_self
    · exact ih (fun condition i hi => hms condition i (List.mem_cons_of_mem _ hi)) n hn
  | printed _ ih | skipped _ ih =>
    exact ih fun condition i hi => hms condition i (List.mem_cons_of_mem _ hi)

theorem Refers.of_arguments (h : Refers ms k refs k') (hms : ∀ m ∈ ms, m = .argument) :
    k' = k + arguments ms ∧ ∀ n ∈ refs, n < (k + arguments ms : Nat) := by
  induction h with
  | nil => exact ⟨rfl, fun n hn => nomatch hn⟩
  | @argument ms k k' refs _ ih =>
    obtain ⟨hk, hrefs⟩ := ih fun m hm => hms m (List.mem_cons_of_mem _ hm)
    have hcount : arguments (.argument :: ms) = arguments ms + 1 := List.count_cons_self
    rw [hcount]
    refine ⟨by omega, fun n hn => ?_⟩
    rcases List.mem_cons.1 hn with rfl | hn
    · omega
    · have := hrefs n hn
      omega
  | index _ _ => cases hms _ List.mem_cons_self
  | printed _ _ | skipped _ _ => cases hms _ List.mem_cons_self

theorem reads_inside {fmt : List Char} {ast : Phrase} (h : parse fmt = .ok ast)
    (hms : ∀ condition n, Mark.index condition n ∈ ast.marks false → 0 ≤ n) (o : Stream)
    (call : Call) : ∀ n ∈ (print fmt call (.start o)).2.reads, 0 ≤ n ∧ n < call.args.length := by
  rw [print_state h]
  have hwalk := print_ast_walks call false (Or.inl rfl) ast (.start o) _ rfl
  cases hrun : print_ast call true ast (.start o) with
  | mk r s =>
    rw [hrun] at hwalk
    cases r with
    | ok u =>
      obtain ⟨new, hnew, hrefers⟩ := hwalk.refs
      intro n hn
      rcases hwalk.reads n hn with hn | hn
      · cases hn
      · rw [hnew] at hn
        exact ⟨hrefers.nonneg hms n hn.1, hn.2⟩
    | error e =>
      obtain ⟨done, rest, new, k, hdone, hrefers, hnew⟩ := hwalk.refs
      intro n hn
      rcases hwalk.reads n hn with hn | hn
      · cases hn
      · rw [hnew] at hn
        refine ⟨hrefers.nonneg (fun condition i hi => hms condition i ?_) n hn.1, hn.2⟩
        rw [hdone]
        exact List.mem_append_left _ hi

theorem Error.Own.not_too_many {refs : List Int} {e : Error} (h : e.Own call refs)
    (size count : Int) (fmt : List Char) : e ≠ .too_many size count fmt := by
  rintro rfl
  obtain ⟨n, hn, -⟩ := h
  exact hn

theorem exact_of_arguments {fmt : List Char} {ast : Phrase} (h : parse fmt = .ok ast)
    (hms : ∀ m ∈ ast.marks false, m = .argument) (o : Stream) (call : Call) :
    Exact o fmt ast call := by
  have hwalk := print_ast_walks call false (Or.inl rfl) ast (.start o) _ rfl
  refine ⟨reads_inside h (fun condition n hn => by cases hms _ hn) o call, ?_, ?_⟩
  · rintro ⟨size, count, f, he⟩
    refine ⟨fun m hm => by rw [hms m hm]; rfl, ?_⟩
    cases hrun : print_ast call true ast (.start o) with
    | mk r s =>
      rw [hrun] at hwalk
      cases r with
      | error e =>
        rw [print_of_error h hrun] at he
        exact absurd (Except.error.inj he) (hwalk.own.not_too_many _ _ _)
      | ok u =>
        obtain ⟨new, hnew, hrefers⟩ := hwalk.refs
        rw [print_of_ok h hrun] at he
        split at he
        · rename_i hlt
          rw [(hrefers.of_arguments hms).1] at hlt
          have := hlt.2
          rwa [show (Printer.start o).count = 0 from rfl, Nat.zero_add] at this
        · cases he
  · intro hs
    cases hrun : print_ast call true ast (.start o) with
    | mk r s =>
      rw [hrun] at hwalk
      cases r with
      | error e =>
        refine ⟨e, print_of_error h hrun, ?_⟩
        rintro size expected rfl
        obtain ⟨done, rest, new, k, hdone, hrefers, hnew⟩ := hwalk.refs
        obtain ⟨n, ⟨-, -, hle⟩, hn⟩ := hwalk.own
        have hmem := hn ⟨_, _, rfl⟩
        rw [hnew] at hmem
        have hlt := (hrefers.of_arguments fun m hm => hms m (by
          rw [hdone]
          exact List.mem_append_left _ hm)).2 n hmem
        have hcount : arguments done ≤ arguments (ast.marks false) := by
          unfold arguments
          rw [hdone, List.count_append]
          omega
        have := hs.2
        have hzero : (Printer.start o).count = 0 := rfl
        omega
      | ok u =>
        obtain ⟨new, hnew, hrefers⟩ := hwalk.refs
        have hfull : s.full_positional = true := by
          rw [hwalk.full]
          have hany : (ast.marks false).any Mark.placed = false := by
            rw [List.any_eq_false]
            intro m hm
            rw [hms m hm]
            exact Bool.false_ne_true
          rw [hany]
          rfl
        have hlt : s.count < call.args.length := by
          rw [(hrefers.of_arguments hms).1, show (Printer.start o).count = 0 from rfl, Nat.zero_add]
          exact hs.2
        refine ⟨_, by rw [print_of_ok h hrun, if_pos ⟨hfull, hlt⟩], ?_⟩
        intro size expected he
        cases he

theorem exact_of_placed {fmt : List Char} {ast : Phrase} (h : parse fmt = .ok ast)
    (hms : ∀ condition n, Mark.index condition n ∈ ast.marks false → 0 ≤ n) {n : Int}
    (hn : Mark.index false n ∈ ast.marks false) (o : Stream) (call : Call) :
    Exact o fmt ast call := by
  have hwalk := print_ast_walks call false (Or.inl rfl) ast (.start o) _ rfl
  refine ⟨reads_inside h hms o call, ?_, fun hs => by cases hs.1 _ hn⟩
  rintro ⟨size, count, f, he⟩
  cases hrun : print_ast call true ast (.start o) with
  | mk r s =>
    rw [hrun] at hwalk
    cases r with
    | error e =>
      rw [print_of_error h hrun] at he
      exact absurd (Except.error.inj he) (hwalk.own.not_too_many _ _ _)
    | ok u =>
      have hfull : s.full_positional = false := by
        rw [hwalk.full, List.any_eq_true.2 ⟨_, hn, rfl⟩]
        rfl
      rw [print_of_ok h hrun, if_neg (by simp [hfull])] at he
      cases he

theorem index_mem_number (b : Bool) {condition : Bool} (h : Mark.index condition n ∈ ms) (k : Nat) :
    n ∈ number b k ms := by
  induction ms generalizing k with
  | nil => cases h
  | cons m ms ih =>
    cases m with
    | argument =>
      rcases List.mem_cons.1 h with h | h
      · cases h
      · exact List.mem_cons_of_mem _ (ih h _)
    | index condition' i =>
      rcases List.mem_cons.1 h with h | h
      · cases h
        exact List.mem_cons_self
      · exact List.mem_cons_of_mem _ (ih h _)
    | percent =>
      rcases List.mem_cons.1 h with h | h
      · cases h
      · exact ih h _

theorem spent_of_no_index (h : ∀ m ∈ ms, m.indexed = false) : spent true ms = ms.length := by
  induction ms with
  | nil => rfl
  | cons m ms ih =>
    have happ := spent_append true [m] ms
    rw [List.singleton_append] at happ
    rw [happ, ih fun m' hm' => h m' (List.mem_cons_of_mem _ hm'), List.length_cons]
    cases m with
    | index condition n => cases h _ List.mem_cons_self
    | argument | percent => exact Nat.add_comm _ _

theorem full_of_not_placed {inside : Bool} {ast : Phrase}
    (hplaced : ¬ ∃ n, Mark.index false n ∈ ast.marks inside)
    (h : Walked call (ast.marks inside) s s') (hs : s.full_positional = true) :
    s'.full_positional = true := by
  have hany : (ast.marks inside).any Mark.placed = false := by
    rw [List.any_eq_false]
    rintro (_ | ⟨_ | _, i⟩ | _) hm
    · exact Bool.false_ne_true
    · exact absurd ⟨i, hm⟩ hplaced
    · exact Bool.false_ne_true
    · exact Bool.false_ne_true
  rw [h.full, hany, hs]
  rfl

section

variable {fmt : List Char} {ast : Phrase}

theorem exists_taken (ast : Phrase) :
    ∃ size s, print_ast (plain_call true size ast.names) true ast (.start fresh) = (.ok (), s) ∧
      Plainly true (ast.marks false) (.start fresh) s ∧ s.count < size := by
  obtain ⟨size, hle, hindex⟩ := exists_size (ast.marks false) ((ast.marks false).length + 1)
  have hfits : Fits size ast.names (ast.marks false) ast.names 0 :=
    ⟨by omega, hindex, fun _ => id⟩
  obtain ⟨s, hrun, hp⟩ := print_ast_goes (b := true) (s := .start fresh) ast false hfits
  refine ⟨size, s, hrun, hp, ?_⟩
  have hspent := spent_le_length (!true) (ast.marks false)
  rw [hp.count, show (Printer.start fresh).count = 0 from rfl]
  omega

theorem nonneg_of_exact (h : parse fmt = .ok ast) (hexact : ∀ o call, Exact o fmt ast call)
    (condition : Bool) (n : Int) (hn : Mark.index condition n ∈ ast.marks false) : 0 ≤ n := by
  obtain ⟨size, s, hrun, hp, -⟩ := exists_taken ast
  refine ((hexact fresh (plain_call true size ast.names)).reads n ?_).1
  rw [print_state h, hrun, hp.reads rfl]
  exact List.mem_append_right _ (index_mem_number _ hn _)

theorem no_condition_of_exact (h : parse fmt = .ok ast) (hexact : ∀ o call, Exact o fmt ast call)
    (hplaced : ¬ ∃ n, Mark.index false n ∈ ast.marks false) (n : Int) :
    Mark.index true n ∉ ast.marks false := by
  intro hn
  obtain ⟨size, s, hrun, hp, hlt⟩ := exists_taken ast
  have hwalk := print_ast_walks (plain_call true size ast.names) false (Or.inl rfl) ast
    (.start fresh) _ rfl
  rw [hrun] at hwalk
  have hfull := full_of_not_placed hplaced hwalk rfl
  have hlen : (plain_call true size ast.names).args.length = size := List.length_replicate
  have hmany : (print fmt (plain_call true size ast.names) (.start fresh)).1
      = .error (.too_many size s.count fmt) := by
    rw [print_of_ok h hrun, hlen, if_pos ⟨hfull, hlt⟩]
  have hs := (hexact fresh (plain_call true size ast.names)).reported ⟨_, _, _, hmany⟩
  cases hs.1 _ hn

theorem no_percent_of_exact (h : parse fmt = .ok ast) (hexact : ∀ o call, Exact o fmt ast call)
    (hindexed : ∀ m ∈ ast.marks false, m.indexed = false) : Mark.percent ∉ ast.marks false := by
  intro hpercent
  have hfits : Fits (ast.marks false).length ast.names (ast.marks false) ast.names 0 :=
    ⟨by omega, fun condition n hn => (nomatch hindexed _ hn), fun _ => id⟩
  obtain ⟨s, hrun, hp⟩ := print_ast_goes (b := false) (s := .start fresh) ast false hfits
  rw [Bool.not_false, Bool.or_true] at hrun
  have hspent := spent_of_no_index hindexed
  have hcount : s.count = (ast.marks false).length := by
    rw [hp.count, Bool.not_false, hspent]
    exact Nat.zero_add _
  have hlen : (plain_call false (ast.marks false).length ast.names).args.length
      = (ast.marks false).length := List.length_replicate
  have hmore : 0 < (ast.marks false).count .percent := List.count_pos_iff.2 hpercent
  have hsum : arguments (ast.marks false) + (ast.marks false).count .percent
      = (ast.marks false).length := hspent
  obtain ⟨e, he, -⟩ := (hexact fresh (plain_call false (ast.marks false).length ast.names)).surplus
    ⟨hindexed, by omega⟩
  rw [print_of_ok h hrun, if_neg (by omega)] at he
  cases he

end

/-- The check is exact for every call if and only if the format is checked. -/
theorem arguments_are_checked_iff {fmt : List Char} {ast : Phrase} (h : parse fmt = .ok ast) :
    (∀ o call, Exact o fmt ast call) ↔ Checked (ast.marks false) := by
  constructor
  · intro hexact
    refine ⟨nonneg_of_exact h hexact, ?_⟩
    by_cases hplaced : ∃ n, Mark.index false n ∈ ast.marks false
    · exact Or.inl hplaced
    · have hcond := no_condition_of_exact h hexact hplaced
      refine Or.inr ⟨hcond, ?_⟩
      apply no_percent_of_exact h hexact
      rintro (_ | ⟨_ | _, i⟩ | _) hm
      · rfl
      · exact absurd ⟨i, hm⟩ hplaced
      · exact absurd hm (hcond i)
      · rfl
  · rintro ⟨hnonneg, hchecked⟩ o call
    by_cases hplaced : ∃ n, Mark.index false n ∈ ast.marks false
    · obtain ⟨n, hn⟩ := hplaced
      exact exact_of_placed h hnonneg hn o call
    · obtain ⟨hcond, hpercent⟩ := hchecked.resolve_left hplaced
      apply exact_of_arguments h
      rintro (_ | ⟨_ | _, i⟩ | _) hm
      · rfl
      · exact absurd ⟨i, hm⟩ hplaced
      · exact absurd hm (hcond i)
      · exact absurd hm hpercent

/-- `{?a}{}`. -/
theorem a_condition_and_an_argument : Exact fresh ['{', '?', 'a', '}', '{', '}']
    (.item (.literal []) (.branch .next (.item (.literal ['a']) .nil)
      (.item (.literal []) (.item (.var .next) (.item (.literal []) .nil)))))
    (plain_call true 2 []) := by
  refine (arguments_are_checked_iff rfl).2 ⟨fun condition n hn => ?_, Or.inr ⟨fun n hn => ?_, ?_⟩⟩
    fresh (plain_call true 2 [])
  · simp [Phrase.marks, Item.marks, Var.marks] at hn
  · simp [Phrase.marks, Item.marks, Var.marks] at hn
  · decide

/-- `{-1}` reads before the list, `{0?a}` reports its only argument as one too many, and `{?%%}`
takes two arguments without a word where the first one is false. -/
theorem arguments_are_not_checked :
    (print ['{', '-', '1', '}'] (plain_call true 1 []) (.start fresh)).2.reads = [-1] ∧
    (print ['{', '0', '?', 'a', '}'] (plain_call true 1 []) (.start fresh)).1
      = .error (.too_many 1 0 ['{', '0', '?', 'a', '}']) ∧
    (print ['{', '?', '%', '%', '}'] (plain_call false 2 []) (.start fresh)).1 = .ok () ∧
    ¬ ∀ fmt ast, parse fmt = .ok ast → ∀ o call, Exact o fmt ast call := by
  have hbefore : (print ['{', '-', '1', '}'] (plain_call true 1 []) (.start fresh)).2.reads
      = [-1] := by decide
  refine ⟨hbefore, rfl, rfl, fun hall => ?_⟩
  have hreads := (hall ['{', '-', '1', '}'] _ rfl fresh (plain_call true 1 [])).reads (-1)
  rw [hbefore] at hreads
  have := (hreads (List.mem_singleton_self _)).1
  omega

end elle._details
