-- The prefixes of a listing: what `kvServer.List` cuts off the keys at the delimiter. A
-- character stands for a byte of a key, as that is what the positions of Go count.
import Memo.KVListing
import Mathlib.Data.List.TakeWhile

open stores

namespace memo.kvs

/-! ## Values in the order of their first appearance -/

section

variable {α β : Type} [DecidableEq β] {f : α → Option β} {l : List α} {a : α} {b : β}

/-- A value is appended to those that were seen, if it is new. -/
def note (f : α → Option β) (seen : List β) (a : α) : List β :=
  match f a with
  | some b => if b ∈ seen then seen else seen ++ [b]
  | none => seen

def noted (f : α → Option β) (l : List α) : List β := l.foldl (note f) []

theorem noted_append : noted f (l ++ [a]) = note f (noted f l) a := by
  simp [noted, List.foldl_append]

theorem mem_note {seen : List β} : b ∈ note f seen a ↔ b ∈ seen ∨ f a = some b := by
  unfold note
  cases hf : f a with
  | none => simp
  | some c =>
    dsimp only
    split_ifs with hc
    · constructor
      · exact Or.inl
      · rintro (h | h)
        · exact h
        · obtain rfl : c = b := Option.some.inj h
          exact hc
    · simp [eq_comm]

theorem mem_noted : b ∈ noted f l ↔ ∃ a ∈ l, f a = some b := by
  induction l using List.reverseRecOn with
  | nil => simp [noted]
  | append_singleton l a ih =>
    rw [noted_append, mem_note, ih]
    simp only [List.mem_append, List.mem_singleton, or_and_right, exists_or, exists_eq_left]

theorem noted_nodup : (noted f l).Nodup := by
  induction l using List.reverseRecOn with
  | nil => exact List.nodup_nil
  | append_singleton l a ih =>
    rw [noted_append, note]
    cases f a with
    | none => exact ih
    | some b =>
      dsimp only
      split_ifs with hb
      · exact ih
      · rw [List.nodup_append]
        refine ⟨ih, List.nodup_singleton b, ?_⟩
        intro c hc d hd heq
        rw [List.mem_singleton] at hd
        exact hb (hd ▸ heq ▸ hc)

/-- The value `b` appears before `c`. -/
def Precedes (f : α → Option β) (l : List α) (b c : β) : Prop :=
  ∃ earlier a later, l = earlier ++ a :: later ∧ f a = some b ∧ ∀ x ∈ earlier, f x ≠ some c

omit [DecidableEq β] in
theorem Precedes.append (h : Precedes f l b c) : Precedes f (l ++ [a]) b c := by
  obtain ⟨earlier, x, later, rfl, hx, hearlier⟩ := h
  exact ⟨earlier, x, later ++ [a], by simp, hx, hearlier⟩

theorem noted_ordered : (noted f l).Pairwise (Precedes f l) := by
  induction l using List.reverseRecOn with
  | nil => exact List.Pairwise.nil
  | append_singleton l a ih =>
    have hold : (noted f l).Pairwise (Precedes f (l ++ [a])) := ih.imp fun h => h.append
    rw [noted_append, note]
    cases hf : f a with
    | none => exact hold
    | some c =>
      dsimp only
      split_ifs with hc
      · exact hold
      · rw [List.pairwise_append]
        refine ⟨hold, List.pairwise_singleton _ _, ?_⟩
        intro b hb d hd
        obtain rfl := List.mem_singleton.mp hd
        obtain ⟨x, hx, hfx⟩ := mem_noted.mp hb
        obtain ⟨earlier, later, rfl⟩ := List.append_of_mem hx
        refine ⟨earlier, x, later ++ [a], by simp, hfx, fun y hy hfy => hc ?_⟩
        exact mem_noted.mpr ⟨y, List.mem_append_left _ hy, hfy⟩

end

/-! ## Positions -/

variable {sep s : Key} {pos : Nat}

theorem index_eq_some (hsep : sep ≠ []) : Index sep s = some pos ↔
    sep <+: s.drop pos ∧ ∀ j < pos, ¬ sep <+: s.drop j := by
  induction s generalizing pos with
  | nil => simp [Index, hsep]
  | cons c s ih =>
    rw [Index]
    split_ifs with h
    all_goals rw [List.isPrefixOf_iff_prefix] at h
    · constructor
      · rintro heq
        obtain rfl : 0 = pos := Option.some.inj heq
        exact ⟨h, fun j hj => absurd hj (Nat.not_lt_zero j)⟩
      · rintro ⟨-, hfirst⟩
        have : ¬ 0 < pos := fun hpos => hfirst 0 hpos h
        simp
        omega
    · cases pos with
      | zero => simp [h]
      | succ pos =>
        rw [Option.map_eq_some_iff]
        simp only [Nat.add_right_cancel_iff, exists_eq_right, List.drop_succ_cons, ih]
        refine and_congr_right fun _ => ⟨fun hrest j hj => ?_, fun hrest j hj => ?_⟩
        · cases j with
          | zero => exact h
          | succ j => exact hrest j (by omega)
        · exact hrest (j + 1) (by omega)

theorem length_of_drop (hsep : sep ≠ []) (h : sep <+: s.drop pos) :
    pos + sep.length ≤ s.length := by
  have hlen := h.length_le
  have hpos : 0 < sep.length := List.length_pos_iff.mpr hsep
  rw [List.length_drop] at hlen
  omega

/-! ## What a delimiter cuts off -/

namespace ListRequest

variable {req : ListRequest} {k p : Key}

/-- The key goes on, after the prefix, with `p`, which ends at its first delimiter. -/
structure Cuts (req : ListRequest) (k p : Key) : Prop where
  starts : req.Prefix ++ p <+: k
  ends : req.Delimiter <:+ p
  first : ∀ q, q ++ req.Delimiter <+: p → q ++ req.Delimiter = p

/-- Where the delimiter is in what follows the prefix. -/
def delimPos (req : ListRequest) (k : Key) : Option Nat :=
  Index req.Delimiter (k.drop req.Prefix.length)

theorem cuts_iff (hd : req.Delimiter ≠ []) (hk : req.Prefix <+: k) : req.Cuts k p ↔
    ∃ pos, req.delimPos k = some pos ∧
      p = (k.drop req.Prefix.length).take (pos + req.Delimiter.length) := by
  obtain ⟨rest, rfl⟩ := hk
  unfold delimPos
  rw [List.drop_left]
  simp only [index_eq_some hd]
  constructor
  · rintro ⟨hstarts, ⟨q, rfl⟩, hfirst⟩
    have hrest : q ++ req.Delimiter <+: rest := (List.prefix_append_right_inj _).mp hstarts
    refine ⟨q.length, ⟨?_, fun j hj hjd => ?_⟩, ?_⟩
    · obtain ⟨tail, rfl⟩ := hrest
      simp
    · -- an earlier delimiter would be one of `q ++ delimiter` already
      obtain ⟨tail, htail⟩ := hjd
      have hsplit : rest.take j ++ req.Delimiter <+: rest :=
        ⟨tail, by rw [List.append_assoc, htail, List.take_append_drop]⟩
      have hlength : (rest.take j).length = j := by
        have := hrest.length_le
        rw [List.length_append] at this
        rw [List.length_take]
        omega
      have hle : (rest.take j ++ req.Delimiter).length ≤ (q ++ req.Delimiter).length := by
        rw [List.length_append, List.length_append, hlength]
        omega
      have heq := hfirst _ (List.prefix_of_prefix_length_le hsplit hrest hle)
      have := congrArg List.length heq
      rw [List.length_append, List.length_append, hlength] at this
      omega
    · rw [← List.length_append]
      exact List.prefix_iff_eq_take.mp hrest
  · rintro ⟨pos, ⟨⟨tail, htail⟩, hfirst⟩, rfl⟩
    have hle := length_of_drop hd ⟨tail, htail⟩
    have hcut : rest.take (pos + req.Delimiter.length) = rest.take pos ++ req.Delimiter := by
      rw [List.take_add, ← htail, List.take_left]
    refine ⟨?_, ⟨rest.take pos, hcut.symm⟩, fun q hq => ?_⟩
    · exact (List.prefix_append_right_inj _).mpr (List.take_prefix _ _)
    · have hrest : q ++ req.Delimiter <+: rest := hq.trans (List.take_prefix _ _)
      have hlength := hq.length_le
      rw [List.length_append, List.length_take] at hlength
      have hqd : req.Delimiter <+: rest.drop q.length := by
        obtain ⟨t, rfl⟩ := hrest
        simp
      have hge : ¬ q.length < pos := fun hlt => hfirst _ hlt hqd
      refine hq.eq_of_length ?_
      rw [List.length_append, List.length_take]
      omega

/-! ## What the loop groups -/

variable {keys : List Key} {found : Bool} {res : ListResponse}

/-- As many keys as there is room for after `n` items. -/
def room (req : ListRequest) (n : Nat) (keys : List Key) : List Key :=
  if req.MaxKeys = 0 then keys else keys.take (req.MaxKeys - n)

/-- The keys that a call lists: those with the prefix, after the marker if there is one, as many as
it asks for. -/
def selected (req : ListRequest) (keys : List Key) : List Key :=
  req.room 0 (if req.Marker = [] then req.listed keys
    else ((req.listed keys).dropWhile (· ≠ req.Marker)).tail)

theorem add_prefixes : (req.add k res).Prefixes = note req.upToDelimiter res.Prefixes k := by
  unfold add note
  cases req.upToDelimiter k with
  | none => rfl
  | some p =>
    dsimp only
    split_ifs <;> rfl

theorem loop_room (hfound : req.Marker = [] ∨ found = true)
    (hroom : req.MaxKeys = 0 ∨ res.Items.length < req.MaxKeys) :
    (req.loop keys found res).Items = res.Items ++ req.room res.Items.length (req.listed keys) ∧
      (req.loop keys found res).Prefixes =
        (req.room res.Items.length (req.listed keys)).foldl (note req.upToDelimiter)
          res.Prefixes := by
  induction keys generalizing res with
  | nil => simp [loop, listed, room]
  | cons k keys ih =>
    rw [loop]
    by_cases hk : req.Prefix.isPrefixOf k = true
    · have hmarker : ¬ (req.Marker ≠ [] ∧ ¬ found = true) := by tauto
      have hitems : (req.add k res).Items = res.Items ++ [k] := rfl
      have hlength : (res.Items ++ [k]).length = res.Items.length + 1 := by simp
      rw [if_neg (by simp [hk]), if_neg hmarker, listed_cons_of_starts hk]
      split_ifs with hmax
      · -- the last item
        have hone : req.room res.Items.length (k :: req.listed keys) = [k] := by
          have hleft : req.MaxKeys - res.Items.length = 1 := by omega
          rw [room, if_neg (by omega), hleft]
          rfl
        rw [hone]
        exact ⟨rfl, add_prefixes⟩
      · have hroom' : req.MaxKeys = 0 ∨ (req.add k res).Items.length < req.MaxKeys := by
          rw [hitems]
          omega
        obtain ⟨hrest, hprefixes⟩ := ih hroom'
        have hcons : req.room res.Items.length (k :: req.listed keys) =
            k :: req.room (req.add k res).Items.length (req.listed keys) := by
          rw [hitems, hlength]
          unfold room
          split_ifs with hzero
          · rfl
          · have hleft : req.MaxKeys - res.Items.length =
                req.MaxKeys - (res.Items.length + 1) + 1 := by omega
            rw [hleft, List.take_succ_cons]
        rw [hcons, hrest, hprefixes, hitems, List.foldl_cons, add_prefixes]
        simp
    · rw [if_pos (by simpa using hk), listed_cons_of_not hk]
      exact ih hroom

theorem loop_selected : (req.loop keys false {}).Items = req.selected keys ∧
    (req.loop keys false {}).Prefixes = noted req.upToDelimiter (req.selected keys) := by
  have hroom : req.MaxKeys = 0 ∨ ({} : ListResponse).Items.length < req.MaxKeys := by
    rcases Nat.eq_zero_or_pos req.MaxKeys with h | h
    · exact Or.inl h
    · exact Or.inr h
  unfold selected
  by_cases hm : req.Marker = []
  · rw [if_pos hm]
    exact loop_room (Or.inl hm) hroom
  · rw [if_neg hm]
    by_cases hmem : req.Marker ∈ req.listed keys
    · obtain ⟨hkey, hp⟩ := List.mem_filter.mp hmem
      obtain ⟨front, left, rfl, hfront⟩ := List.eq_append_cons_of_mem hkey
      have hleft : ((req.listed (front ++ req.Marker :: left)).dropWhile
          (· ≠ req.Marker)).tail = req.listed left := by
        have hskip : ∀ x ∈ req.listed front, decide (x ≠ req.Marker) = true := by
          intro x hx
          have hx := (List.mem_filter.mp hx).1
          have hne : x ≠ req.Marker := fun heq => hfront (heq ▸ hx)
          simpa using hne
        unfold listed at hskip ⊢
        rw [List.filter_append, List.filter_cons_of_pos hp,
          List.dropWhile_append_of_pos hskip, List.dropWhile_cons_of_neg (by simp)]
        rfl
      rw [loop_marker hm hp hfront, hleft]
      exact loop_room (Or.inr rfl) hroom
    · have hnone : (req.listed keys).dropWhile (· ≠ req.Marker) = [] := by
        rw [List.dropWhile_eq_nil_iff]
        intro x hx
        have hne : x ≠ req.Marker := fun heq => hmem (heq ▸ hx)
        simpa using hne
      rw [loop_missed hm hmem, hnone]
      simp [room, noted]

/-! ## Groups -/

variable {A : Type} {km : KeyMap A}

/-- The prefixes are what the delimiter cuts off the items, once each, in the order of the
items. -/
structure Groups (req : ListRequest) (items prefixes : List Key) : Prop where
  nodup : prefixes.Nodup
  cut : ∀ p, p ∈ prefixes ↔ ∃ k ∈ items, req.Cuts k p
  ordered : prefixes.Pairwise fun p q => ∃ earlier k later, items = earlier ++ k :: later ∧
    req.Cuts k p ∧ ∀ x ∈ earlier, ¬ req.Cuts x q

/-- The delimiter does not follow the prefix of the key, or it is one byte that does not follow it
at once. -/
def OneByte (req : ListRequest) (k : Key) : Prop :=
  req.delimPos k = none ∨ req.Delimiter.length = 1 ∧ req.delimPos k ≠ some 0

instance (req : ListRequest) : DecidablePred req.OneByte :=
  fun _ => inferInstanceAs (Decidable (_ ∨ _))

theorem up_to_delimiter (hd : req.Delimiter ≠ []) : req.upToDelimiter k = some p ↔
    ∃ pos, req.delimPos k = some (pos + 1) ∧
      p = (k.drop req.Prefix.length).take (pos + 2) := by
  rw [upToDelimiter, if_neg hd, delimPos]
  dsimp only
  generalize Index req.Delimiter (k.drop req.Prefix.length) = index
  rcases index with - | - | pos <;> simp [eq_comm]

theorem OneByte.cuts (hd : req.Delimiter ≠ []) (hk : req.Prefix <+: k) (h : req.OneByte k) :
    req.Cuts k p ↔ req.upToDelimiter k = some p := by
  rw [cuts_iff hd hk, up_to_delimiter hd]
  rcases h with hnone | ⟨hone, hpos⟩
  · simp [hnone]
  · constructor
    · rintro ⟨pos, heq, rfl⟩
      obtain ⟨n, rfl⟩ : ∃ n, pos = n + 1 := Nat.exists_eq_succ_of_ne_zero fun h => hpos (h ▸ heq)
      exact ⟨n, heq, by rw [hone]⟩
    · rintro ⟨pos, heq, rfl⟩
      exact ⟨pos + 1, heq, by rw [hone]⟩

theorem not_cuts (hd : req.Delimiter ≠ []) {k' : Key} (hk : req.Prefix <+: k)
    (h : ¬ req.OneByte k) (hcut : req.Cuts k p) : req.upToDelimiter k' ≠ some p := by
  intro hreported
  obtain ⟨pos', hpos', hp'⟩ := (up_to_delimiter hd).mp hreported
  obtain ⟨pos, hpos, hp⟩ := (cuts_iff hd hk).mp hcut
  have hd' : 0 < req.Delimiter.length := List.length_pos_iff.mpr hd
  obtain ⟨hoccurs', hfirst'⟩ := (index_eq_some hd).mp hpos'
  have hle' := length_of_drop hd hoccurs'
  have hle := length_of_drop hd ((index_eq_some hd).mp hpos).1
  have hlength : pos + req.Delimiter.length = pos' + 2 := by
    have := congrArg List.length (hp.symm.trans hp')
    rw [List.length_take, List.length_take] at this
    omega
  by_cases hone : req.Delimiter.length = 1
  · -- the delimiter alone would be cut off, and two bytes or more are reported
    have hzero : pos = 0 := by
      by_contra hne
      exact h (Or.inr ⟨hone, fun heq => hne (Option.some.inj (hpos.symm.trans heq))⟩)
    omega
  · -- the delimiter would end before its first occurrence does
    refine hfirst' pos (by omega) ?_
    obtain ⟨q, hq⟩ := hcut.ends
    have hqlen : q.length = pos := by
      have := congrArg List.length (hq.trans hp)
      rw [List.length_append, List.length_take] at this
      omega
    have hpre : q ++ req.Delimiter <+: k'.drop req.Prefix.length := by
      rw [hq, hp']
      exact List.take_prefix _ _
    obtain ⟨tail, htail⟩ := hpre
    rw [← htail, ← hqlen]
    simp

theorem prefix_of_selected (h : k ∈ req.selected keys) : req.Prefix <+: k := by
  have hlisted : k ∈ req.listed keys := by
    have hroom : ∀ l : List Key, k ∈ req.room 0 l → k ∈ l := by
      intro l hl
      unfold room at hl
      split_ifs at hl
      · exact hl
      · exact List.mem_of_mem_take hl
    have hmem := hroom _ h
    split_ifs at hmem
    · exact hmem
    · exact List.dropWhile_sublist _ |>.subset (List.mem_of_mem_tail hmem)
  exact List.isPrefixOf_iff_prefix.mp (List.mem_filter.mp hlisted).2

/-- The prefixes of a listing are right when the delimiter is one byte and follows the prefix of no
listed key at once, or follows it in none. -/
theorem prefixes_are_grouped_iff (req : ListRequest) (km : KeyMap A) (hd : req.Delimiter ≠ []) :
    req.Groups (kvServer.List km req).Items (kvServer.List km req).Prefixes ↔
      ∀ k ∈ req.selected (sorted km), req.OneByte k := by
  have hitems' : (kvServer.List km req).Items = req.selected (sorted km) := loop_selected.1
  have hprefixes' : (kvServer.List km req).Prefixes =
    noted req.upToDelimiter (req.selected (sorted km)) := loop_selected.2
  rw [hitems', hprefixes']
  constructor
  · intro h k hk
    by_contra hone
    have hpre := prefix_of_selected hk
    obtain ⟨pos, hpos⟩ : ∃ pos, req.delimPos k = some pos :=
      Option.ne_none_iff_exists'.mp fun hnone => hone (Or.inl hnone)
    have hcut := (cuts_iff hd hpre).mpr ⟨pos, hpos, rfl⟩
    obtain ⟨k', -, hk'⟩ := mem_noted.mp ((h.cut _).mpr ⟨k, hk, hcut⟩)
    exact not_cuts hd hpre hone hcut hk'
  · intro h
    have hcuts : ∀ k ∈ req.selected (sorted km), ∀ p,
        req.Cuts k p ↔ req.upToDelimiter k = some p :=
      fun k hk p => (h k hk).cuts hd (prefix_of_selected hk)
    refine ⟨noted_nodup, fun p => ?_, noted_ordered.imp fun {p q} hpq => ?_⟩
    · rw [mem_noted]
      exact exists_congr fun k => and_congr_right fun hk => (hcuts k hk p).symm
    · obtain ⟨earlier, k, later, hsplit, hk, hearlier⟩ := hpq
      refine ⟨earlier, k, later, hsplit, (hcuts k (by simp [hsplit]) p).mpr hk, fun x hx => ?_⟩
      exact (hcuts x (by simp [hsplit, hx]) q).not.mpr (hearlier x hx)

/-- Three keys, of which two go on after a delimiter. -/
def directory (delimiter : Key) : KeyMap Nat :=
  put ('a' :: delimiter ++ ['x']) (some ⟨none⟩)
    (put ('a' :: delimiter ++ ['y']) (some ⟨none⟩) (put ['b'] (some ⟨none⟩) ∅))

theorem a_directory_is_grouped :
    (kvServer.List (directory ['/']) { Delimiter := ['/'] }).Prefixes = [['a', '/']] ∧
    Groups { Delimiter := ['/'] } (kvServer.List (directory ['/']) { Delimiter := ['/'] }).Items
      (kvServer.List (directory ['/']) { Delimiter := ['/'] }).Prefixes :=
  ⟨by decide, (prefixes_are_grouped_iff { Delimiter := ['/'] } (directory ['/'])
    (by decide)).mpr (by decide)⟩

/-- A delimiter of two bytes is cut in its middle. -/
theorem a_long_delimiter_is_cut : ¬ ∀ (req : ListRequest) (km : KeyMap Nat), req.Delimiter ≠ [] →
    req.Groups (kvServer.List km req).Items (kvServer.List km req).Prefixes := by
  intro h
  have hcut := (h { Delimiter := ['-', '-'] } (directory ['-', '-']) (by decide)).cut ['a', '-']
  have hprefixes : (kvServer.List (directory ['-', '-'])
    { Delimiter := ['-', '-'] }).Prefixes = [['a', '-']] := by decide
  rw [hprefixes] at hcut
  obtain ⟨k, -, hk⟩ := hcut.mp List.mem_cons_self
  have hends := hk.ends
  revert hends
  decide

end ListRequest

end memo.kvs
