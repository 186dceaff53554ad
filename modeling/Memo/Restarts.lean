-- The stored form of a server of `athena::paxos`, in both formats, and the server
-- that starts again from it.
import Mathlib.Data.Finset.Sort
import Mathlib.Algebra.Order.Ring.Int
import Memo.Archives
import Memo.Binary
import Memo.ServerLaws

open ops codec archive
open elle.binary renaming Error → ReadError
open elle.binary (int32 count of_int32 of_int32_ok int_range)

namespace athena.paxos

variable {T Id : Type} [LinearOrder Id]

/-! ## What is written -/

/-- How the parameters of the server are written, as `version` of elle. Objects carry their version
when there is a tag. `order` is the order in which the members of a quorum are walked. -/
structure Parts (T Id : Type) where
  elle_version : elle.Version
  tag : Option (Serial ReadError elle.Version)
  version : Serial ReadError Int
  id : Serial ReadError Id
  value : Serial ReadError T
  order : Finset Id → List Id

def faults : Faults ReadError where
  missing_key name := .error ("missing mandatory key: \"" ++ name ++ "\"")
  type_error := .error "invalid type for key"
  unknown_option := .abort "unknown option type while applying"

def int : Serial ReadError Int where
  put := int32.put
  get := int32.get
  json n := .number n
  of_json
    | .number n => of_int32 n
    | _ => .error faults.type_error
  fits := int_range
  reads h rest := int32.reads h rest
  json_reads h := of_int32_ok.mpr ⟨h, rfl⟩

def bool : Serial ReadError Bool where
  put := elle.binary.bool.put
  get := elle.binary.bool.get
  json b := .bool b
  of_json
    | .bool b => .ok b
    | _ => .error faults.type_error
  fits _ := True
  reads h rest := elle.binary.bool.reads h rest
  json_reads _ := rfl

@[simp] def field {α : Type} (name : String) (c : Serial ReadError α) : Fields ReadError α :=
  Fields.field faults name c

@[simp] def optional {α : Type} (name : String) (c : Serial ReadError α) :
    Fields ReadError (Option α) :=
  Fields.optional elle.binary.bool name c

namespace Parts

variable (P : Parts T Id)

def object {α : Type} (f : elle.Version → Fields ReadError α) : Serial ReadError α :=
  Serial.object faults P.tag f P.elle_version

/-- `Proposal::serialize`. -/
def proposal : Serial ReadError (Proposal Id) :=
  P.object fun _ =>
    ((field "version" P.version).pair
      ((field "round" int).pair (field "sender" P.id) (by simp))
      (by simp)).convert
      (fun p => some (p.version, p.round, p.sender)) fun x => ⟨x.1, x.2.1, x.2.2⟩

def quorum : Serial ReadError (Finset Id) :=
  (P.id.list faults count).convert (fun q => some (P.order q)) List.toFinset

/-- `Option::serialize`, of a value or a quorum. -/
def decided : Serial ReadError (Value T Id) :=
  P.object fun _ => (Fields.sum faults int P.value P.quorum).convert
    (fun
      | .value v => some (.inl v)
      | .quorum q => some (.inr q))
    (Sum.elim .value .quorum)

/-- `Accepted::serialize`. Before 0.1.0 there are values only, and all are confirmed. -/
def accepted : Serial ReadError (Accepted T Id) :=
  P.object fun v =>
    if ⟨0, 1, 0⟩ ≤ v then
      ((field "proposal" P.proposal).pair
        ((field "value" P.decided).pair (field "confirmed" bool) (by simp))
        (by simp)).convert
        (fun a => some (a.proposal, a.value, a.confirmed)) fun x => ⟨x.1, x.2.1, x.2.2⟩
    else
      ((field "proposal" P.proposal).pair (field "value" P.value)
        (by simp)).convert
        (fun a =>
          match a.value with
          | .value v => some (a.proposal, v)
          | .quorum _ => none)
        fun x => ⟨x.1, .value x.2, true⟩

/-- `VersionState::serialize`. -/
def version_state : Serial ReadError (VersionState T Id) :=
  P.object fun _ =>
    ((field "proposal" P.proposal).pair (optional "accepted" P.accepted)
      (by simp)).convert
      (fun st => some (st.proposal, st.accepted)) fun x => ⟨x.1, x.2⟩

/-- What is written of a server: the id, the quorum, the committed value, the version states and
whether it missed some versions. -/
abbrev Contents (T Id : Type) :=
  Id × Finset Id × Option T × List (VersionState T Id) × Bool

/-- `Server::serialize`. -/
def contents : Serial ReadError (Contents T Id) :=
  P.object fun v =>
    (field "id" P.id).pair
      ((field "quorum" P.quorum).pair
        (((optional "value" P.value).when (⟨0, 1, 0⟩ ≤ v) none).pair
          ((field "state" (P.version_state.list faults count)).pair
            ((field "partial" bool).when (⟨0, 2, 0⟩ ≤ v) false) (by simp))
          (by simp))
        (by simp))
      (by simp)

/-- `s.rbegin()` of the ordered container of the version states: the one of the greatest version. -/
def rbegin (states : List (VersionState T Id)) : Option (VersionState T Id) :=
  states.foldl (fun last st =>
    match last with
    | none => some st
    | some l => if l.proposal.version < st.proposal.version then some st else some l) none

def save (s : Server T Id) : Contents T Id :=
  (s.id, s.quorum, s.value, s.state.toList, s.partial_state)

/-- The constructor of a server from its stored form. The elle version comes from the context of the
reader. -/
def load (context : elle.Version) (x : Contents T Id) : Server T Id where
  id := x.1
  quorum := x.2.1
  value := x.2.2.1
  version := context
  partial_state := x.2.2.2.2
  state := rbegin x.2.2.2.1

/-- The bytes of a server. -/
def serialize (s : Server T Id) : Bytes := P.contents.put (save s)

def deserialize (context : elle.Version) (b : Bytes) : Except ReadError (Server T Id) :=
  (P.contents.get b).1.map (load context)

/-- The document of a server. -/
def serialize_json (s : Server T Id) : Json := P.contents.json (save s)

def deserialize_json (context : elle.Version) (j : Json) : Except ReadError (Server T Id) :=
  (P.contents.of_json j).map (load context)

omit [LinearOrder Id] in
theorem load_save (context : elle.Version) (s : Server T Id) :
    load context (save s) = { s with version := context } := by
  have hstate : rbegin s.state.toList = s.state := by cases s.state <;> rfl
  simp [load, save, hstate]

/-! ## What can be written -/

/-- The version of the objects is read back, and a quorum is walked member by member. -/
structure Lawful : Prop where
  tag : ∀ t, P.tag = some t → t.fits P.elle_version
  order : ∀ q, (P.order q).toFinset = q

/-- A value of the template that is read back, also where it may be absent. -/
def FitsValue (v : T) : Prop := P.value.fits v ∧ P.value.json v ≠ .null

/-- A quorum of fewer members than an `int` counts. -/
def FitsQuorum (q : Finset Id) : Prop := (P.order q).length < 2 ^ 31 ∧ ∀ i ∈ q, P.id.fits i

def FitsProposal (p : Proposal Id) : Prop :=
  P.version.fits p.version ∧ int_range p.round ∧ P.id.fits p.sender

def FitsDecided : Value T Id → Prop
  | .value v => P.FitsValue v
  | .quorum q => P.FitsQuorum q

structure FitsState (st : VersionState T Id) : Prop where
  proposal : P.FitsProposal st.proposal
  accepted : ∀ a, st.accepted = some a → P.FitsProposal a.proposal ∧ P.FitsDecided a.value

structure Fits (s : Server T Id) : Prop where
  id : P.id.fits s.id
  quorum : P.FitsQuorum s.quorum
  value : ∀ v, s.value = some v → P.FitsValue v
  state : ∀ st, s.state = some st → P.FitsState st

/-- The arguments of a call. -/
def FitsRequest : Request T Id → Prop
  | .propose q p => P.FitsQuorum q ∧ P.FitsProposal p
  | .accept q p v => P.FitsQuorum q ∧ P.FitsProposal p ∧ P.FitsDecided v
  | .confirm q p => P.FitsQuorum q ∧ P.FitsProposal p
  | .get q => P.FitsQuorum q

variable {P} {s : Server T Id}

theorem object_fits {α : Type} {f : elle.Version → Fields ReadError α} {a : α} (h : P.Lawful)
    (ha : (f P.elle_version).fits a) (hn : version_key ∉ (f P.elle_version).names) :
    (P.object f).fits a := ⟨ha, hn, h.tag⟩

theorem proposal_fits (h : P.Lawful) {p : Proposal Id} (hp : P.FitsProposal p) :
    P.proposal.fits p :=
  object_fits h (Fields.convert_fits rfl ⟨hp.1, hp.2.1, hp.2.2⟩ rfl) (by simp [version_key])

theorem quorum_fits (h : P.Lawful) {q : Finset Id} (hq : P.FitsQuorum q) : P.quorum.fits q := by
  refine ⟨P.order q, rfl, ⟨hq.1, fun i hi => hq.2 i ?_⟩, h.order q⟩
  rw [← h.order q]
  exact List.mem_toFinset.mpr hi

theorem int_fits_index : int.fits 0 ∧ int.fits 1 := by
  constructor <;> constructor <;> decide

theorem decided_fits (h : P.Lawful) {v : Value T Id} (hv : P.FitsDecided v) :
    P.decided.fits v := by
  refine object_fits h ?_ (by simp [version_key])
  cases v with
  | value v => exact Fields.convert_fits rfl ⟨int_fits_index.1, hv.1⟩ rfl
  | quorum q => exact Fields.convert_fits rfl ⟨int_fits_index.2, quorum_fits h hv⟩ rfl

theorem accepted_fits (h : P.Lawful) (hv : ⟨0, 1, 0⟩ ≤ P.elle_version) {a : Accepted T Id}
    (hp : P.FitsProposal a.proposal) (ha : P.FitsDecided a.value) : P.accepted.fits a := by
  refine object_fits h ?_ ?_
  · rw [if_pos hv]
    exact Fields.convert_fits rfl ⟨proposal_fits h hp, decided_fits h ha, trivial⟩ rfl
  · rw [if_pos hv]
    simp [version_key]

theorem version_state_fits (h : P.Lawful) (hv : ⟨0, 1, 0⟩ ≤ P.elle_version)
    {st : VersionState T Id} (hst : P.FitsState st) : P.version_state.fits st := by
  refine object_fits h (Fields.convert_fits rfl ⟨proposal_fits h hst.proposal, ?_⟩ rfl)
    (by simp [version_key])
  refine ⟨fun _ => trivial, fun a ha => ⟨?_, by simp [accepted, object, Serial.object]⟩⟩
  obtain ⟨hp, hd⟩ := hst.accepted a ha
  exact accepted_fits h hv hp hd

theorem contents_fits (h : P.Lawful) (hv : ⟨0, 2, 0⟩ ≤ P.elle_version) (hs : P.Fits s) :
    P.contents.fits (save s) := by
  have hv1 : ⟨0, 1, 0⟩ ≤ P.elle_version := le_trans (by decide) hv
  refine object_fits h ⟨hs.id, quorum_fits h hs.quorum, ?_, ⟨?_, ?_⟩, ?_⟩ (by simp [version_key])
  · rw [Fields.when_fits _ hv1]
    exact ⟨fun _ => trivial, fun v hvalue => hs.value v hvalue⟩
  · change s.state.toList.length < 2 ^ 31
    cases s.state <;> simp
  · intro st hst
    exact version_state_fits h hv1 (hs.state st (by simpa [save] using hst))
  · rw [Fields.when_fits _ hv]
    trivial

theorem deserialize_serialize (h : P.Lawful) (hv : ⟨0, 2, 0⟩ ≤ P.elle_version) (hs : P.Fits s)
    (context : elle.Version) :
    P.deserialize context (P.serialize s) = .ok { s with version := context } ∧
      P.deserialize_json context (P.serialize_json s) = .ok { s with version := context } := by
  have hfits := contents_fits h hv hs
  constructor
  · have hread := P.contents.reads hfits []
    rw [List.append_nil] at hread
    unfold deserialize serialize
    rw [hread]
    exact congrArg Except.ok (load_save context s)
  · unfold deserialize_json serialize_json
    rw [P.contents.json_reads hfits]
    exact congrArg Except.ok (load_save context s)

/-! ## Any calls before -/

omit [LinearOrder Id] in
theorem fits_state_of_none {p : Proposal Id} (hp : P.FitsProposal p) :
    P.FitsState ⟨p, none⟩ := ⟨hp, by simp⟩

variable [Inhabited Id]

theorem Fits.handle (h : P.Fits s) {r : Request T Id} (hr : P.FitsRequest r) :
    P.Fits (s.handle r).2 := by
  have hwith : ∀ {st : VersionState T Id} {partial_state : Bool}, P.FitsState st →
      P.Fits { s with partial_state, state := some st } := by
    intro st _ hst
    refine ⟨h.id, h.quorum, h.value, fun st' hst' => ?_⟩
    cases hst'
    exact hst
  apply Server.handle_rule (P := fun s' => P.Fits s') h
  · rintro q p rfl res s' hp
    cases hp with
    | failed e => exact h
    | newer hs hv => exact h
    | first hs => exact hwith (fits_state_of_none hr.2)
    | @next sp a hs hv hc =>
      have ha := (h.state _ hs).accepted a rfl
      obtain ⟨ap, v | q', c⟩ := a
      · refine ⟨h.id, h.quorum, fun v' hv' => ?_, fun st hst => ?_⟩
        · cases hv'
          exact ha.2
        · cases hst
          exact fits_state_of_none hr.2
      · refine ⟨h.id, ha.2, h.value, fun st hst => ?_⟩
        cases hst
        exact fits_state_of_none hr.2
    | skip hs hv hp hc => exact hwith (fits_state_of_none hr.2)
    | raise hs hlt hv => exact hwith ⟨hr.2, (h.state _ hs).accepted⟩
    | refused hs hle => exact h
  · rintro q p v rfl res s' ha
    cases ha with
    | failed e => exact h
    | obsolete hs hlt => exact h
    | accepted hs hp =>
      refine hwith ⟨hr.2.1, fun a ha => ?_⟩
      cases ha
      exact ⟨hr.2.1, hr.2.2⟩
  · rintro q p rfl res s' hc
    cases hc with
    | failed e => exact h
    | obsolete hs hv => exact h
    | already hs hle hv ha => exact h
    | @confirmed sp a hs hle hv ha =>
      obtain ⟨hsp, hacc⟩ := h.state _ hs
      refine ⟨h.id, ?_, h.value, fun st hst => ?_⟩
      · change P.FitsQuorum (if s.partial_state then q else s.quorum)
        split_ifs
        · exact hr.1
        · exact h.quorum
      · cases hst
        refine ⟨hsp, fun a' ha' => ?_⟩
        cases ha'
        exact hacc a rfl

theorem Fits.after (h : P.Fits s) {rs : List (Request T Id)} (hrs : ∀ r ∈ rs, P.FitsRequest r) :
    P.Fits (s.after rs) := by
  induction rs using List.reverseRecOn with
  | nil => exact h
  | append_singleton rs r ih =>
    rw [Server.after_append]
    exact (ih fun r' hr' => hrs r' (List.mem_append_left _ hr')).handle (hrs r (by simp))

end Parts

/-! ## Any calls after -/

namespace Server

variable {s : Server T Id} {c : elle.Version}

/-- The answers to a list of calls, executed one after the other. -/
def answers [Inhabited Id] (s : Server T Id) :
    List (Request T Id) → List (Except (Error Id) (Answer T Id))
  | [] => []
  | r :: rs => (s.handle r).1 :: (s.handle r).2.answers rs

/-- The elle version decides whether confirmations are needed, and nothing else. -/
def SameAge (v c : elle.Version) : Prop := v < ⟨0, 1, 0⟩ ↔ c < ⟨0, 1, 0⟩

/-- The server, with another elle version. -/
def at_version (s : Server T Id) (c : elle.Version) : Server T Id := { s with version := c }

theorem promise_version (s : Server T Id) (c : elle.Version) (p : Proposal Id) :
    (s.at_version c).promise p = ((s.promise p).1, (s.promise p).2.at_version c) := by
  obtain ⟨id, quorum, value, version, partial_state, state⟩ := s
  cases state with
  | none => rfl
  | some st =>
    simp only [at_version, promise]
    split
    · rfl
    · cases st.accepted <;> rfl

omit [LinearOrder Id] in
theorem commit_at_version (s : Server T Id) (c : elle.Version) (a : Accepted T Id) :
    (s.at_version c).commit a = (s.commit a).at_version c := by
  obtain ⟨p, v | q, confirmed⟩ := a <;> rfl

omit [LinearOrder Id] in
theorem check_confirmed_version (h : SameAge s.version c) (p : Proposal Id) :
    (s.at_version c).check_confirmed p = s.check_confirmed p := by
  unfold check_confirmed
  by_cases hold : s.version < ⟨0, 1, 0⟩
  · have hold' : (s.at_version c).version < ⟨0, 1, 0⟩ := h.mp hold
    rw [if_pos hold, if_pos hold']
  · have hold' : ¬ (s.at_version c).version < ⟨0, 1, 0⟩ := fun hc => hold (h.mpr hc)
    rw [if_neg hold, if_neg hold']
    rfl

variable [Inhabited Id]

theorem propose_version (h : SameAge s.version c) (q : Finset Id) (p : Proposal Id) :
    (s.at_version c).propose q p = ((s.propose q p).1, (s.propose q p).2.at_version c) := by
  have hn : (s.at_version c).newer p = s.newer p := rfl
  have hq : (s.at_version c).check_quorum q (some p) = s.check_quorum q (some p) := rfl
  have hst : (s.at_version c).state = s.state := rfl
  have hp : (s.at_version c).partial_state = s.partial_state := rfl
  unfold propose
  rw [hn, hq, hst, hp, check_confirmed_version h]
  cases s.newer p with
  | some a => rfl
  | none =>
    simp only
    split_ifs with hc hpartial
    · cases s.check_quorum q (some p) with
      | error e => rfl
      | ok u =>
        cases hs : s.state with
        | none => exact promise_version s c p
        | some st =>
          simp only
          split_ifs with hv
          · cases st.accepted with
            | none => rfl
            | some a =>
              simp only
              rw [commit_at_version]
              exact promise_version _ c p
          · exact promise_version s c p
    · exact promise_version { s with partial_state := true, state := none } c p
    · exact promise_version s c p

theorem accept_version (s : Server T Id) (c : elle.Version) (q : Finset Id) (p : Proposal Id)
    (v : Value T Id) :
    (s.at_version c).accept q p v = ((s.accept q p v).1, (s.accept q p v).2.at_version c) := by
  have hq : check_quorum_unless_partial (s.at_version c) q p =
    check_quorum_unless_partial s q p := rfl
  have hst : (s.at_version c).state = s.state := rfl
  unfold accept
  rw [hq, hst]
  cases check_quorum_unless_partial s q p with
  | error e => rfl
  | ok u =>
    cases s.state with
    | none => rfl
    | some st =>
      simp only
      split_ifs <;> rfl

theorem confirm_version (s : Server T Id) (c : elle.Version) (q : Finset Id) (p : Proposal Id) :
    (s.at_version c).confirm q p = ((s.confirm q p).1, (s.confirm q p).2.at_version c) := by
  have hq : check_quorum_unless_partial (s.at_version c) q p =
    check_quorum_unless_partial s q p := rfl
  have hst : (s.at_version c).state = s.state := rfl
  have hp : (s.at_version c).partial_state = s.partial_state := rfl
  unfold confirm
  rw [hq, hst, hp]
  cases check_quorum_unless_partial s q p with
  | error e => split_ifs <;> rfl
  | ok u =>
    obtain _ | ⟨sp, _ | a⟩ := s.state
    · rfl
    · simp only
      split_ifs <;> rfl
    · simp only
      split_ifs <;> rfl

theorem handle_at_version (h : SameAge s.version c) (r : Request T Id) :
    (s.at_version c).handle r = ((s.handle r).1, (s.handle r).2.at_version c) := by
  cases r with
  | propose q p => simp only [handle, propose_version h]
  | accept q p v => simp only [handle, accept_version]
  | confirm q p => simp only [handle, confirm_version]
  | get q => rfl

theorem answers_at_version (h : SameAge s.version c) (rs : List (Request T Id)) :
    (s.at_version c).answers rs = s.answers rs := by
  induction rs generalizing s with
  | nil => rfl
  | cons r rs ih =>
    have hnext : SameAge (s.handle r).2.version c := by rwa [handle_version]
    simp only [answers, handle_at_version h, ih hnext]

end Server

/-- After any calls, a server that is written and read back has the same id, quorum, value, version
state and missed versions, and it answers any further calls as if it had not stopped. -/
theorem a_restart_changes_no_answer [Inhabited Id] {P : Parts T Id} (hP : P.Lawful)
    (hv : ⟨0, 2, 0⟩ ≤ P.elle_version) {id : Id} {quorum : Finset Id} {value : Option T}
    {version context : elle.Version} (hage : Server.SameAge version context)
    (hnew : P.Fits (Server.new id quorum value version)) {rs : List (Request T Id)}
    (hrs : ∀ r ∈ rs, P.FitsRequest r) :
    ∃ s, P.deserialize context (P.serialize ((Server.new id quorum value version).after rs)) =
        .ok s ∧
      P.deserialize_json context
        (P.serialize_json ((Server.new id quorum value version).after rs)) = .ok s ∧
      s = { (Server.new id quorum value version).after rs with version := context } ∧
      ∀ rs', s.answers rs' = ((Server.new id quorum value version).after rs).answers rs' := by
  obtain ⟨hread, hread_json⟩ := Parts.deserialize_serialize hP hv (hnew.after hrs) context
  refine ⟨_, hread, hread_json, rfl, fun rs' => Server.answers_at_version ?_ rs'⟩
  rwa [Server.after_version]

/-- Ids, versions and values that are an `int`, without versions of objects. -/
def ints : Parts Int Int where
  elle_version := ⟨0, 4, 0⟩
  tag := none
  version := int
  id := int
  value := int
  order q := q.sort (· ≤ ·)

theorem lawful_ints : ints.Lawful := ⟨by simp [ints], fun q => q.sort_toFinset (· ≤ ·)⟩

theorem fits_one_two : ints.FitsQuorum {1, 2} := by
  constructor
  · change (Finset.sort ({1, 2} : Finset Int) (· ≤ ·)).length < 2 ^ 31
    rw [Finset.length_sort]
    decide
  · intro i hi
    simp only [Finset.mem_insert, Finset.mem_singleton] at hi
    rcases hi with rfl | rfl <;> exact ⟨by decide, by decide⟩

/-- A server that has accepted 7 and has not confirmed it. -/
def seven : List (Request Int Int) :=
  [.propose {1, 2} ⟨1, 1, 9⟩, .accept {1, 2} ⟨1, 1, 9⟩ (.value 7)]

theorem an_accepted_value_survives :
    ∃ s, ints.deserialize ⟨0, 4, 0⟩
          (ints.serialize ((Server.new 1 {1, 2} none ⟨0, 4, 0⟩).after seven)) = .ok s ∧
      ints.deserialize_json ⟨0, 4, 0⟩
        (ints.serialize_json ((Server.new 1 {1, 2} none ⟨0, 4, 0⟩).after seven)) = .ok s ∧
      s = { (Server.new 1 {1, 2} none ⟨0, 4, 0⟩).after seven with version := ⟨0, 4, 0⟩ } ∧
      ∀ rs', s.answers rs' = ((Server.new 1 {1, 2} none ⟨0, 4, 0⟩).after seven).answers rs' := by
  have hone : int_range 1 := ⟨by decide, by decide⟩
  have hp : ints.FitsProposal ⟨1, 1, 9⟩ := ⟨hone, hone, by decide, by decide⟩
  refine a_restart_changes_no_answer lawful_ints (by decide) Iff.rfl
    ⟨hone, fits_one_two, by simp [Server.new], by simp [Server.new]⟩ ?_
  intro r hr
  simp only [seven, List.mem_cons, List.not_mem_nil, or_false] at hr
  rcases hr with rfl | rfl
  · exact ⟨fits_one_two, hp⟩
  · exact ⟨fits_one_two, hp, ⟨by decide, by decide⟩, by simp [ints, int]⟩

end athena.paxos
