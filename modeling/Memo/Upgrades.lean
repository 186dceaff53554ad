-- Servers that stop while clients run, and start again from what they stored, maybe as
-- nodes of another version. The clients cannot tell, so a version still decides one value.
import Memo.PaxosAgreement
import Memo.Restarts

open runs

namespace athena.paxos.World

variable {T Id : Type}

/-! ## Restarts -/

/-- A step of the servers and clients, or a server that stops and is loaded by a node of some
version. -/
inductive Event (T Id : Type) where
  | act (a : Action T Id)
  | restart (s : Id) (version : elle.Version)

/-- The steps of the servers and clients alone. -/
def acts (es : List (Event T Id)) : List (Action T Id) :=
  es.filterMap fun
    | .act a => some a
    | .restart _ _ => none

def go [LinearOrder Id] [Inhabited Id] (w : World T Id) : Event T Id → Option (World T Id)
  | .act a => w.step a
  | .restart s version =>
    some { w with servers := Function.update w.servers s ((w.servers s).stored version) }

/-- The versions that store all that a server keeps. -/
def Keeping (v : elle.Version) : Prop := ⟨0, 2, 0⟩ ≤ v

/-- The condition on the steps, and on the nodes that load a server. -/
def Kept (ok : World T Id → Action T Id → Prop) (w : World T Id) : Event T Id → Prop
  | .act a => ok w a
  | .restart _ version => Keeping version

/-! ## What restarts leave -/

/-- The two servers are the same, but for their versions. -/
structure Alike (s t : Server T Id) : Prop where
  keeping : Keeping s.version
  before : Keeping t.version
  same : s = t.at_version s.version

variable {f : Id → Server T Id} {w u : World T Id} {a : Action T Id} {s t : Server T Id}
  {v c : elle.Version}

theorem not_old (h : Keeping v) : ¬ v < ⟨0, 1, 0⟩ := fun hlt =>
  absurd (le_trans h hlt.le) (by decide)

theorem stored_keeping (s : Server T Id) (hc : Keeping c) : s.stored c = s.at_version c := by
  unfold Server.stored
  rw [if_neg (not_old hc), if_neg (not_old hc), if_neg (not_lt.mpr hc)]
  rfl

theorem read_stored [LinearOrder Id] {P : Parts T Id} (hP : P.Lawful) (hv : Keeping P.elle_version)
    (hs : P.Fits s) (hc : Keeping c) : P.deserialize c (P.serialize s) = .ok (s.stored c) := by
  rw [stored_keeping s hc]
  exact (Parts.deserialize_serialize hP hv hs c).1

theorem Alike.stored (h : Alike s t) (hc : Keeping c) : Alike (s.stored c) t := by
  refine ⟨hc, h.before, ?_⟩
  rw [stored_keeping s hc, h.same]
  rfl

variable [LinearOrder Id]

theorem Alike.handle [Inhabited Id] (h : Alike s t) (r : Request T Id) :
    (s.handle r).1 = (t.handle r).1 ∧ Alike (s.handle r).2 (t.handle r).2 := by
  have hage : Server.SameAge t.version s.version :=
    iff_of_false (not_old h.before) (not_old h.keeping)
  have hhandle := Server.handle_at_version hage r
  rw [← h.same] at hhandle
  refine ⟨by rw [hhandle], ?_, ?_, ?_⟩
  · rw [Server.handle_version]
    exact h.keeping
  · rw [Server.handle_version]
    exact h.before
  · rw [Server.handle_version, hhandle]

theorem alike_update {i : Id} (h : ∀ i, Alike (f i) (u.servers i)) (hs : Alike s t) (j : Id) :
    Alike (Function.update f i s j) (Function.update u.servers i t j) := by
  by_cases hj : j = i
  · subst hj
    simpa only [Function.update_self] using hs
  · simpa only [Function.update_of_ne hj] using h j

theorem advance_servers (u : World T Id) (f : Id → Server T Id) (k : Nat) (run : Choose T Id) :
    World.advance { u with servers := f } k run =
      (u.advance k run).map fun u' => { u' with servers := f } := by
  unfold World.advance
  have hq : World.quorumOf { u with servers := f } run.client = u.quorumOf run.client := rfl
  simp only [hq]
  cases run.phase with
  | proposing responses =>
    simp only
    cases weigh (u.quorumOf run.client) run.proposal run.replace run.weak_error
      (responses.map (·.2)) <;> rfl
  | accepting reached =>
    simp only
    cases check_headcount (u.quorumOf run.client) reached.length run.weak_error false <;> rfl
  | conflicted => rfl
  | confirming reached =>
    simp only
    cases check_headcount (u.quorumOf run.client) reached.length run.weak_error false <;> rfl
  | returned choice => rfl
  | failed e => rfl

variable [Inhabited Id]

theorem step_servers (u : World T Id) (f : Id → Server T Id) (ha : ∀ i, a ≠ .deliver i) :
    World.step { u with servers := f } a =
      (u.step a).map fun u' => { u' with servers := f } := by
  cases a with
  | deliver i => exact absurd rfl (ha i)
  | choose k c version value | state k c =>
    simp only [World.step]
    cases u.tasks k <;> rfl
  | receive k s =>
    have hreply : ∀ waiting, World.replyTo { u with servers := f } waiting s =
        u.replyTo waiting s := fun _ => rfl
    simp only [World.step, hreply]
    rcases u.tasks k with _ | run | read
    · rfl
    · simp only
      cases u.replyTo run.waiting s <;> rfl
    · simp only
      cases u.replyTo read.waiting s <;> rfl
  | unavailable k s | weak_error k s e =>
    simp only [World.step]
    rcases u.tasks k with _ | run | read
    · rfl
    · simp only
      split_ifs <;> rfl
    · simp only
      split_ifs <;> rfl
  | advance k =>
    simp only [World.step]
    rcases u.tasks k with _ | run | read
    · rfl
    · simp only [advance_servers]
      split_ifs <;> rfl
    · simp only
      split_ifs <;> rfl

theorem go_alike {ok : World T Id → Action T Id → Prop} {e : Event T Id}
    (h : ∀ s, Alike (f s) (u.servers s)) (hok : Kept ok { u with servers := f } e)
    (hs : go { u with servers := f } e = some w) :
    ∃ f' u', w = { u' with servers := f' } ∧ (∀ s, Alike (f' s) (u'.servers s)) ∧
      match e with
      | .act a => u.step a = some u'
      | .restart _ _ => u' = u := by
  cases e with
  | restart s c =>
    have hself := Function.update_eq_self s u.servers
    have halike := alike_update (i := s) h ((h s).stored hok)
    exact ⟨_, u, (Option.some.inj hs).symm, fun j => hself ▸ halike j, rfl⟩
  | act a =>
    by_cases ha : ∃ i, a = .deliver i
    · obtain ⟨i, rfl⟩ := ha
      simp only [go, World.step] at hs ⊢
      cases hi : u.calls[i]? with
      | none => simp [hi] at hs
      | some call =>
        obtain ⟨hanswer, halike⟩ := (h call.peer).handle call.request
        simp only [hi] at hs ⊢
        split_ifs at hs ⊢ with hr
        refine ⟨_, _, ?_, fun j => alike_update h halike j, rfl⟩
        rw [← Option.some.inj hs]
        unfold World.deliver
        simp only [hanswer]
    · have hne : ∀ i, a ≠ .deliver i := fun i hi => ha ⟨i, hi⟩
      obtain ⟨u', hu', hw⟩ := Option.map_eq_some_iff.mp ((step_servers u f hne).symm.trans hs)
      rcases step_deliver_or_quiet hu' with ⟨i, call, hi, -⟩ | hq
      · exact absurd hi (hne i)
      · exact ⟨f, u', hw.symm, fun j => hq.1.symm ▸ h j, hu'⟩

variable {w₀ : World T Id} {es : List (Event T Id)} {Q : Finset Id} {k k' : Nat}
  {p p' : Proposal Id} {x x' : Value T Id}

theorem run_alike {ok : World T Id → Action T Id → Prop} (h₀ : ∀ s, Keeping (w₀.servers s).version)
    (hok : ∀ u f a, (∀ s, Alike (f s) (World.servers u s)) → ok { u with servers := f } a → ok u a)
    (h : Run go (Kept ok) w₀ es w) :
    ∃ f u, w = { u with servers := f } ∧ (∀ s, Alike (f s) (u.servers s)) ∧
      Run World.step ok w₀ (acts es) u := by
  apply h.history (I := fun es w => ∃ f u, w = { u with servers := f } ∧
    (∀ s, Alike (f s) (u.servers s)) ∧ Run World.step ok w₀ (acts es) u)
  · exact ⟨w₀.servers, w₀, rfl, fun s => ⟨h₀ s, h₀ s, rfl⟩, Run.nil⟩
  · rintro es w e w' ⟨f, u, rfl, halike, hrun⟩ he hs
    obtain ⟨f', u', rfl, halike', hu'⟩ := go_alike halike he hs
    refine ⟨f', u', rfl, halike', ?_⟩
    unfold acts
    rw [List.filterMap_append]
    cases e with
    | act a => exact Run.snoc hrun (hok u f a halike he) hu'
    | restart s c =>
      rw [hu']
      exact (List.append_nil (acts es)).symm ▸ hrun

/-! ## What the clients see -/

/-- Whatever servers stop and whatever versions load them, from 0.2.0 on, the clients, their calls
and the answers are those of the same steps without restarts. -/
theorem restarts_change_nothing (h₀ : ∀ s, Keeping (w₀.servers s).version)
    (h : Run go (Kept anyStep) w₀ es w) :
    ∃ u, Run World.step anyStep w₀ (acts es) u ∧ w.clients = u.clients ∧ w.tasks = u.tasks ∧
      w.calls = u.calls ∧ ∀ s, w.servers s = (u.servers s).at_version (w.servers s).version := by
  obtain ⟨f, u, rfl, halike, hu⟩ := run_alike h₀ (fun _ _ _ _ _ => trivial) h
  exact ⟨u, hu, rfl, rfl, rfl, fun s => (halike s).same⟩

/-- Two `choose` that return the same version decide the same value, whatever restarts, as long as
the servers report each value under the proposal of its acceptance. -/
theorem a_version_decides_one_value_across_restarts (h₀ : Initial Q w₀)
    (hs : ∀ s, Keeping (w₀.servers s).version) (h : Run go (Kept TrueLabels) w₀ es w)
    (hk : w.decision k = some (p, x)) (hk' : w.decision k' = some (p', x'))
    (hver : p.version = p'.version) : x = x' := by
  have hlabels : ∀ (u : World T Id) f a, (∀ s, Alike (f s) (u.servers s)) →
      TrueLabels { u with servers := f } a → TrueLabels u a := by
    intro u f a halike hf
    cases a with
    | deliver i =>
      intro call hcall p hp
      have hlabel : TrueLabel (f call.peer) p := hf call hcall p hp
      rw [(halike call.peer).same] at hlabel
      exact hlabel
    | _ => trivial
  obtain ⟨f, u, rfl, -, hu⟩ := run_alike hs hlabels h
  obtain ⟨hsafe, hsettled⟩ := h₀.settled hu
  obtain ⟨p₀, hp₀, hc⟩ := hsettled k p x hk
  obtain ⟨p₁, hp₁, hc'⟩ := hsettled k' p' x' hk'
  exact hsafe.sound.agreement hc hc' (by rw [hp₀, hp₁, hver])

instance (w : World T Id) : (e : Event T Id) → Decidable (Kept TrueLabels w e)
  | .act a => inferInstanceAs (Decidable (TrueLabels w a))
  | .restart _ v => inferInstanceAs (Decidable ((⟨0, 2, 0⟩ : elle.Version) ≤ v))

/-- Each server stops between two phases of the first `choose`, and one before the second. -/
def stops : List (Event Nat Nat) :=
  [.act (.choose 0 0 1 (.value 7)), .act (.deliver 0), .restart 1 ⟨0, 3, 0⟩, .act (.deliver 1),
    .act (.receive 0 1), .act (.receive 0 2), .act (.unavailable 0 3), .act (.advance 0),
    .restart 2 ⟨0, 2, 0⟩, .act (.deliver 3), .act (.deliver 4), .act (.receive 0 1),
    .act (.receive 0 2), .act (.advance 0), .act (.deliver 5), .act (.deliver 6),
    .act (.receive 0 1), .act (.receive 0 2), .act (.advance 0), .restart 1 ⟨0, 4, 0⟩,
    .act (.choose 1 1 1 (.value 8)), .act (.deliver 7), .act (.deliver 8), .act (.receive 1 1),
    .act (.receive 1 2), .act (.unavailable 1 3), .act (.advance 1)]

theorem keeping_three (s : Nat) : Keeping ((three (11 + ·)).servers s).version :=
  (by decide : (⟨0, 2, 0⟩ : elle.Version) ≤ ⟨0, 4, 0⟩)

theorem run_stops : ∃ w, Run go (Kept TrueLabels) (three (11 + ·)) stops w ∧
    (w.decision 0, w.decision 1) = (some (⟨1, 1, 11⟩, .value 7), some (⟨1, 1, 11⟩, .value 7)) :=
  Run.of_exec_map (by decide +kernel)

theorem servers_stop_unnoticed :
    ∃ w u : World Nat Nat, Run go (Kept anyStep) (three (11 + ·)) stops w ∧
      Run World.step anyStep (three (11 + ·)) (acts stops) u ∧ w.tasks = u.tasks := by
  obtain ⟨w, hw, -⟩ := run_stops
  have hrun : Run go (Kept anyStep) (three (11 + ·)) stops w := by
    refine hw.mono fun w e he => ?_
    cases e with
    | act a => trivial
    | restart s v => exact he
  obtain ⟨u, hu, -, htasks, -⟩ := restarts_change_nothing keeping_three hrun
  exact ⟨w, u, hrun, hu, htasks⟩

theorem the_same_value_is_decided_after_restarts :
    ∃ (w : World Nat Nat) (p p' : Proposal Nat) (x x' : Value Nat Nat),
      Run go (Kept TrueLabels) (three (11 + ·)) stops w ∧ w.decision 0 = some (p, x) ∧
      w.decision 1 = some (p', x') ∧ p.version = p'.version ∧ x = x' := by
  obtain ⟨w, hw, hd⟩ := run_stops
  obtain ⟨hk, hk'⟩ := Prod.mk.inj hd
  exact ⟨w, _, _, _, _, hw, hk, hk', rfl, a_version_decides_one_value_across_restarts
    (initial_three _) keeping_three hw hk hk' rfl⟩

end athena.paxos.World
