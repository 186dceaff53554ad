-- The placement of a block by `Node::kelipsPut`: the replies to the attempts are merged, those
-- that store the block apart from those that would take it, and the first are filled up with
-- the second.
import Memo.KelipsService

namespace memo.overlay.kelips

variable {A E : Type} {k : Nat} [DecidableEq A]

/-! ## The code -/

/-- One turn of the loop of `merge_peerlocations`. -/
def merge_peerlocation [DecidableEq E] (dst : NodeLocations A E) (r : NodeLocation A E) :
    NodeLocations A E :=
  if dst.any fun a => a.id = r.id then
    dst.map fun a => if a.id = r.id then { a with endpoints := a.endpoints ∪ r.endpoints } else a
  else
    dst ++ [r]

def merge_peerlocations [DecidableEq E] (dst src : NodeLocations A E) : NodeLocations A E :=
  src.foldl merge_peerlocation dst

/-- What comes of an attempt: there is no contact to send the request to, or there is one and
the wait ends with its reply or without. -/
inductive Attempt (A E : Type) where
  | no_contact
  | timeout
  | reply (p : PutFileReply A E)

/-- The variables of `Node::kelipsPut`, and the members that it changes. -/
structure Put (A E : Type) where
  results : NodeLocations A E := []
  insert_results : NodeLocations A E := []
  _promised_files : List A := []
  _failed_puts : Nat := 0

/-- The nodes that would take the block are used from the last one on. -/
def fill_loop (n : Int) : NodeLocations A E → NodeLocations A E → NodeLocations A E
  | [], results => results
  | r :: insert_results, results =>
    if results.length < n then fill_loop n insert_results (results ++ [r]) else results

/-- The end of `Node::kelipsPut`. -/
def Put.fill (n : Int) (s : Put A E) : NodeLocations A E :=
  let results := fill_loop n s.insert_results.reverse s.results
  if n < results.length then results.take n.toNat else results

def Put.merge [DecidableEq E] (s : Put A E) (p : PutFileReply A E) : Put A E :=
  { s with
    results := merge_peerlocations s.results p.results
    insert_results := merge_peerlocations s.insert_results p.insert_results }

/-- There are as many nodes as were asked for. -/
def Put.full (n : Int) (s : Put A E) : Bool := n ≤ s.results.length + s.insert_results.length

/-- The node stores the file itself when it knows no other one of the group. -/
def Node.stores (node : Node A E k) (file : A) : Bool :=
  node.group_of file = node._group ∧ !node._observer

/-- The attempts of `Node::kelipsPut`, as many as `query_put_retries`. -/
def Node.kelipsPut_loop [DecidableEq E] (node : Node A E k) (file : A) (n : Int) :
    List (Attempt A E) → Put A E → NodeLocations A E × Put A E
  | [], s => (s.fill n, s)
  | .no_contact :: _, s =>
    if node.stores file then
      (s.results ++ [⟨node._self, ∅⟩], { s with _promised_files := s._promised_files ++ [file] })
    else
      ([], s)
  | .timeout :: attempts, s =>
    node.kelipsPut_loop file n attempts { s with _failed_puts := s._failed_puts + 1 }
  | .reply p :: attempts, s =>
    let s := s.merge p
    if s.full n then
      (s.fill n, s)
    else
      node.kelipsPut_loop file n attempts { s with _failed_puts := s._failed_puts + 1 }

/-- `Node::kelipsPut`, with the state that the node has in the end. -/
def Node.kelipsPut [DecidableEq E] (node : Node A E k) (file : A) (n : Int)
    (attempts : List (Attempt A E)) :
    NodeLocations A E × Node A E k :=
  let out := node.kelipsPut_loop file n attempts {}
  (out.1, { node with _promised_files := node._promised_files ++ out.2._promised_files })

/-! ## What the replies list -/

/-- The addresses, each where it is listed first. -/
def listed (l : List A) : List A := l.reverse.dedup.reverse

/-- The nodes that store the block, by these replies. -/
def storing (l : List (PutFileReply A E)) : List A :=
  listed (l.flatMap fun p => p.results.map NodeLocation.id)

/-- The nodes that would take the block, by these replies. -/
def accepting (l : List (PutFileReply A E)) : List A :=
  listed (l.flatMap fun p => p.insert_results.map NodeLocation.id)

/-- With these replies there are as many nodes as were asked for. -/
def Enough (n : Int) (l : List (PutFileReply A E)) : Prop :=
  n ≤ (storing l).length + (accepting l).length

instance (n : Int) (l : List (PutFileReply A E)) : Decidable (Enough n l) :=
  inferInstanceAs (Decidable (_ ≤ _))

/-- The replies to the attempts that have a contact. -/
def replies : List (Attempt A E) → List (PutFileReply A E)
  | [] | .no_contact :: _ => []
  | .timeout :: attempts => replies attempts
  | .reply p :: attempts => p :: replies attempts

/-- One of the attempts has no contact. -/
def stranded : List (Attempt A E) → Bool
  | [] => false
  | .no_contact :: _ => true
  | _ :: attempts => stranded attempts

/-- The replies up to the first with which there are enough nodes, after those before. -/
def heard (n : Int) (before : List (PutFileReply A E)) :
    List (PutFileReply A E) → List (PutFileReply A E)
  | [] => before
  | p :: l => if Enough n (before ++ [p]) then before ++ [p] else heard n (before ++ [p]) l

/-- Nodes of `inserted` are put behind those of `stored`, the last one first, until there are
`n` nodes. -/
def place (n : Int) (stored inserted : List A) : List A :=
  (stored ++ inserted.reverse.take (n - stored.length).toNat).take n.toNat

theorem listed_append {l : List A} {a : A} :
    listed (l ++ [a]) = if a ∈ l then listed l else listed l ++ [a] := by
  unfold listed
  rw [List.reverse_append, List.reverse_singleton, List.singleton_append, List.dedup_cons]
  split_ifs with hmem hl hl
  · rfl
  · exact absurd (List.mem_reverse.mp hmem) hl
  · exact absurd (List.mem_reverse.mpr hl) hmem
  · rw [List.reverse_cons]

@[simp] theorem mem_listed {l : List A} {a : A} : a ∈ listed l ↔ a ∈ l := by
  simp [listed]

theorem listed_nodup (l : List A) : (listed l).Nodup := by
  unfold listed
  rw [List.nodup_reverse]
  exact List.nodup_dedup _

/-! ## What the code merges -/

variable {dst src : NodeLocations A E} {l : List A} {n : Int}

theorem merge_peerlocation_ids [DecidableEq E] (r : NodeLocation A E)
    (h : dst.map NodeLocation.id = listed l) :
    (merge_peerlocation dst r).map NodeLocation.id = listed (l ++ [r.id]) := by
  have hmem : (dst.any fun a => a.id = r.id) = true ↔ r.id ∈ l := by
    rw [← mem_listed, ← h, List.any_eq_true, List.mem_map]
    simp
  unfold merge_peerlocation
  rw [listed_append, ← h]
  by_cases hr : r.id ∈ l
  · rw [if_pos (hmem.mpr hr), if_pos hr, List.map_map]
    apply List.map_congr_left
    intro a _
    simp only [Function.comp_apply]
    split <;> rfl
  · rw [if_neg (fun hany => hr (hmem.mp hany)), if_neg hr, List.map_append]
    rfl

theorem merge_peerlocations_ids [DecidableEq E] (src : NodeLocations A E)
    (h : dst.map NodeLocation.id = listed l) :
    (merge_peerlocations dst src).map NodeLocation.id =
      listed (l ++ src.map NodeLocation.id) := by
  induction src generalizing dst l with
  | nil => simpa [merge_peerlocations] using h
  | cons r src ih =>
    have hnext := ih (merge_peerlocation_ids r h)
    simpa [merge_peerlocations] using hnext

omit [DecidableEq A] in
theorem fill_loop_eq (insert_results results : NodeLocations A E) :
    fill_loop n insert_results results =
      results ++ insert_results.take (n - results.length).toNat := by
  induction insert_results generalizing results with
  | nil => simp [fill_loop]
  | cons r rs ih =>
    rw [fill_loop]
    split_ifs with hn
    · obtain ⟨m, hm⟩ : ∃ m, (n - results.length).toNat = m + 1 :=
        ⟨(n - results.length).toNat - 1, by omega⟩
      have hnext : (n - (results ++ [r]).length).toNat = m := by
        simp
        omega
      rw [ih, hnext, hm, List.take_succ_cons, List.append_assoc]
      rfl
    · have hzero : (n - results.length).toNat = 0 := by omega
      simp [hzero]

omit [DecidableEq A] in
theorem fill_ids (s : Put A E) :
    (s.fill n).map NodeLocation.id =
      place n (s.results.map NodeLocation.id) (s.insert_results.map NodeLocation.id) := by
  unfold Put.fill place
  rw [fill_loop_eq]
  have hids : (s.results ++ s.insert_results.reverse.take (n - s.results.length).toNat).map
      NodeLocation.id = s.results.map NodeLocation.id ++
        (s.insert_results.map NodeLocation.id).reverse.take
          (n - (s.results.map NodeLocation.id).length).toNat := by
    rw [List.map_append, List.map_take, List.map_reverse, List.length_map]
  dsimp only
  split_ifs with hn
  · rw [List.map_take, hids]
  · rw [← hids]
    refine (List.take_of_length_le ?_).symm
    rw [List.length_map]
    omega

/-- The lists of the put are those of the replies so far. -/
structure Put.Of (s : Put A E) (l : List (PutFileReply A E)) : Prop where
  results : s.results.map NodeLocation.id = storing l
  insert_results : s.insert_results.map NodeLocation.id = accepting l

variable {s : Put A E} {before : List (PutFileReply A E)} {node : Node A E k} {file : A}
  {attempts : List (Attempt A E)}

theorem Put.Of.merge [DecidableEq E] (h : s.Of before) (p : PutFileReply A E) :
    (s.merge p).Of (before ++ [p]) := by
  constructor
  · have hresults := merge_peerlocations_ids p.results h.results
    simpa [storing, Put.merge] using hresults
  · have hinsert := merge_peerlocations_ids p.insert_results h.insert_results
    simpa [accepting, Put.merge] using hinsert

theorem Put.Of.full (h : s.Of before) : s.full n = true ↔ Enough n before := by
  have hresults := congrArg List.length h.results
  have hinsert := congrArg List.length h.insert_results
  rw [List.length_map] at hresults hinsert
  unfold Put.full Enough
  rw [decide_eq_true_iff, hresults, hinsert]

theorem Put.Of.fill (h : s.Of before) :
    (s.fill n).map NodeLocation.id = place n (storing before) (accepting before) := by
  rw [fill_ids, h.results, h.insert_results]

/-! ## The locations -/

/-- The nodes that are returned, by the replies that are heard. -/
def Node.placed (node : Node A E k) (file : A) (n : Int) (attempts : List (Attempt A E))
    (l : List (PutFileReply A E)) : List A :=
  if stranded attempts ∧ ¬Enough n l then
    if node.stores file then storing l ++ [node._self] else []
  else
    place n (storing l) (accepting l)

theorem kelipsPut_loop_ids [DecidableEq E] (h : s.Of before) (hbefore : ¬Enough n before) :
    (node.kelipsPut_loop file n attempts s).1.map NodeLocation.id =
      node.placed file n attempts (heard n before (replies attempts)) := by
  induction attempts generalizing s before with
  | nil => simp [Node.kelipsPut_loop, Node.placed, stranded, replies, heard, h.fill]
  | cons attempt attempts ih =>
    cases attempt with
    | no_contact =>
      simp only [Node.kelipsPut_loop, Node.placed, stranded, replies, heard, hbefore,
        not_false_eq_true, and_self, if_true]
      split_ifs
      · simp [h.results]
      · rfl
    | timeout =>
      have hof : Put.Of { s with _failed_puts := s._failed_puts + 1 } before :=
        ⟨h.results, h.insert_results⟩
      exact ih hof hbefore
    | reply p =>
      rw [Node.kelipsPut_loop, replies, heard]
      by_cases hp : Enough n (before ++ [p])
      · rw [if_pos ((h.merge p).full.mpr hp), if_pos hp, (h.merge p).fill, Node.placed, if_neg]
        exact fun hstranded => hstranded.2 hp
      · rw [if_neg (fun hfull => hp ((h.merge p).full.mp hfull)), if_neg hp]
        have hof : Put.Of { s.merge p with _failed_puts := (s.merge p)._failed_puts + 1 }
            (before ++ [p]) := ⟨(h.merge p).results, (h.merge p).insert_results⟩
        exact ih hof hp

/-- A node that stores the block has enough nodes behind it that would take it. -/
def Backed (n : Int) (stored inserted : List A) : Prop :=
  ∀ a ∈ stored, ∀ earlier later, inserted = earlier ++ a :: later →
    n ≤ stored.length + later.length

theorem storing_nodup (l : List (PutFileReply A E)) : (storing l).Nodup := listed_nodup _

theorem accepting_nodup (l : List (PutFileReply A E)) : (accepting l).Nodup := listed_nodup _

omit [DecidableEq A] in
theorem place_length (stored inserted : List A) : (place n stored inserted).length ≤ n.toNat := by
  unfold place
  exact List.length_take_le _ _

omit [DecidableEq A] in
theorem place_nodup_iff {stored inserted : List A} (hstored : stored.Nodup)
    (hinserted : inserted.Nodup) :
    (place n stored inserted).Nodup ↔ Backed n stored inserted := by
  unfold place Backed
  by_cases hn : n ≤ stored.length
  · have hzero : (n - stored.length).toNat = 0 := by omega
    rw [hzero, List.take_zero, List.append_nil]
    constructor
    · intro _ a _ earlier later _
      omega
    · intro _
      exact hstored.sublist (List.take_sublist _ _)
  · rw [List.take_of_length_le (by simp; omega), List.nodup_append]
    constructor
    · rintro ⟨-, -, hdisj⟩ a ha earlier later rfl
      by_contra hlt
      refine hdisj a ha a ?_ rfl
      have hd : later.length < (n - stored.length).toNat := by omega
      rw [List.reverse_append, List.reverse_cons, List.mem_take_iff_getElem]
      refine ⟨later.length, by simp; omega, ?_⟩
      simp
    · intro hbacked
      refine ⟨hstored, (List.nodup_reverse.mpr hinserted).sublist (List.take_sublist _ _), ?_⟩
      rintro a ha b hb rfl
      have hmem := List.mem_reverse.mp (List.mem_of_mem_take hb)
      obtain ⟨earlier, later, rfl⟩ := List.append_of_mem hmem
      have hlater := hbacked a ha earlier later rfl
      rw [List.reverse_append, List.reverse_cons, List.append_assoc,
        List.take_append_of_le_length (by simp; omega)] at hb
      rw [List.nodup_append] at hinserted
      exact (List.nodup_cons.mp hinserted.2.1).1
        (List.mem_reverse.mp (List.mem_of_mem_take hb))

/-- The condition on the replies: of those that are heard, the nodes that store the block have
enough others behind them, and a node that is left alone is not one of them. -/
def Node.Apart (node : Node A E k) (file : A) (n : Int) (attempts : List (Attempt A E)) : Prop :=
  let l := heard n [] (replies attempts)
  if stranded attempts ∧ ¬Enough n l then
    node.stores file → node._self ∉ storing l
  else
    Backed n (storing l) (accepting l)

theorem not_enough_nil (hn : 1 ≤ n) : ¬Enough n ([] : List (PutFileReply A E)) := by
  unfold Enough
  simp [storing, accepting, listed]
  omega

/-- The locations are distinct nodes, and no more than asked for, exactly when the replies keep
those that store the block apart from those that are filled in. -/
theorem kelipsPut_distinct_iff [DecidableEq E] (node : Node A E k) (file : A) (n : Int)
    (attempts : List (Attempt A E)) (hn : 1 ≤ n) :
    (((node.kelipsPut file n attempts).1.map NodeLocation.id).Nodup ∧
        ((node.kelipsPut file n attempts).1.length : Int) ≤ n) ↔
      node.Apart file n attempts := by
  have hids : (node.kelipsPut file n attempts).1.map NodeLocation.id =
      node.placed file n attempts (heard n [] (replies attempts)) :=
    kelipsPut_loop_ids ⟨rfl, rfl⟩ (not_enough_nil hn)
  have hlength := congrArg List.length hids
  rw [List.length_map] at hlength
  rw [hids, hlength]
  unfold Node.placed Node.Apart
  dsimp only
  set l := heard n [] (replies attempts)
  split_ifs with halone hself
  · have hroom : ¬n ≤ (storing l).length + (accepting l).length := halone.2
    simp only [hself, forall_const]
    rw [List.nodup_append, List.length_append, List.length_singleton]
    constructor
    · rintro ⟨⟨-, -, hdisj⟩, -⟩ hmem
      exact hdisj _ hmem _ (List.mem_singleton_self _) rfl
    · intro hmem
      refine ⟨⟨storing_nodup l, List.nodup_singleton _, ?_⟩, by omega⟩
      rintro a ha b hb rfl
      exact hmem (List.mem_singleton.mp hb ▸ ha)
  · simp [hself]
    omega
  · have hplaced := place_length (n := n) (storing l) (accepting l)
    rw [place_nodup_iff (storing_nodup l) (accepting_nodup l)]
    constructor
    · exact fun h => h.1
    · exact fun h => ⟨h, by omega⟩

/-- A node 0, of one group. -/
def lone : Node (Fin 5) Unit 1 where
  _self := 0
  _config := { group_of := fun _ => ⟨0, Nat.one_pos⟩ }

/-- A reply to the node 0. -/
def told (results insert_results : List (Fin 5)) : Attempt (Fin 5) Unit :=
  .reply ⟨1, false, 7, 0, 4, 0, results.map fun a => ⟨a, ∅⟩, insert_results.map fun a => ⟨a, ∅⟩⟩

/-- The node 1 first takes the block and then stores it. There are two more that take it. -/
theorem an_acceptor_is_placed_once :
    ((lone.kelipsPut 4 3 [told [] [1], .timeout, told [1] [2, 3]]).1.map NodeLocation.id).Nodup ∧
      ((lone.kelipsPut 4 3 [told [] [1], .timeout, told [1] [2, 3]]).1.length : Int) ≤ 3 :=
  (kelipsPut_distinct_iff lone 4 3 [told [] [1], .timeout, told [1] [2, 3]] (by decide)).mpr
    (by
      have hstoring : storing (heard 3 []
          (replies [told [] [1], .timeout, told [1] [2, 3]])) = [1] := by decide
      have haccepting : accepting (heard 3 []
          (replies [told [] [1], .timeout, told [1] [2, 3]])) = [1, 2, 3] := by decide
      unfold Node.Apart
      dsimp only
      rw [if_neg (by decide), hstoring, haccepting]
      rintro a ha earlier later heq
      obtain rfl := List.mem_singleton.mp ha
      cases earlier with
      | nil =>
        obtain rfl : [2, 3] = later := (List.cons.inj heq).2
        decide
      | cons b earlier =>
        have hmem : (1 : Fin 5) ∈ [(2 : Fin 5), 3] := by
          rw [(List.cons.inj heq).2]
          exact List.mem_append_right _ List.mem_cons_self
        exact absurd hmem (by decide))

/-- Two nodes are asked for. The node 1 takes the block, and then it stores it. -/
theorem an_acceptor_is_placed_twice :
    (1 : Int) ≤ 2 ∧
      (∀ p ∈ replies [told [] [1], told [1] []],
        ((p.results ++ p.insert_results).map NodeLocation.id).Nodup) ∧
      (lone.kelipsPut 4 2 [told [] [1], told [1] []]).1.map NodeLocation.id = [1, 1] := by
  decide

end memo.overlay.kelips
