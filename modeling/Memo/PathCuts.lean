-- Searching a goal in a graph, and stopping wherever the path comes back to itself.
-- Nothing is remembered of the branches that were searched before: what the search
-- gives depends on the path alone, and no goal is hidden by the cuts.
import Mathlib.Data.List.Basic

namespace cuts

variable {V : Type} {next : V → V → Prop} {goal : V → Prop} {v w : V} {path : List V}

/-- A goal is reached. -/
inductive Leads (next : V → V → Prop) (goal : V → Prop) : V → Prop
  | here {v : V} (hg : goal v) : Leads next goal v
  | next {v w : V} (hn : next v w) (hw : Leads next goal w) : Leads next goal v

/-- A goal is reached, outside of the path. -/
inductive LeadsOff (next : V → V → Prop) (goal : V → Prop) (path : List V) : V → Prop
  | here {v : V} (hv : v ∉ path) (hg : goal v) : LeadsOff next goal path v
  | next {v w : V} (hv : v ∉ path) (hn : next v w) (hw : LeadsOff next goal path w) :
      LeadsOff next goal path v

theorem LeadsOff.leads (h : LeadsOff next goal path v) : Leads next goal v := by
  induction h with
  | here _ hg => exact Leads.here hg
  | next _ hn _ ih => exact Leads.next hn ih

theorem leadsOff_nil : LeadsOff next goal [] v ↔ Leads next goal v := by
  refine ⟨LeadsOff.leads, fun h => ?_⟩
  induction h with
  | here hg => exact LeadsOff.here List.not_mem_nil hg
  | next hn _ ih => exact LeadsOff.next List.not_mem_nil hn ih

theorem LeadsOff.off (h : LeadsOff next goal path v) : v ∉ path := by
  cases h with
  | here hv => exact hv
  | next hv => exact hv

theorem LeadsOff.shorter (h : LeadsOff next goal (w :: path) v) : LeadsOff next goal path v := by
  induction h with
  | here hv hg => exact LeadsOff.here (fun hm => hv (List.mem_cons_of_mem w hm)) hg
  | next hv hn _ ih => exact LeadsOff.next (fun hm => hv (List.mem_cons_of_mem w hm)) hn ih

theorem LeadsOff.meets (h : LeadsOff next goal path v) (w : V) :
    LeadsOff next goal (w :: path) v ∨
      (goal w ∨ ∃ x, next w x ∧ LeadsOff next goal (w :: path) x) := by
  have hoff {x : V} (hx : x ∉ path) (hne : x ≠ w) : x ∉ w :: path := by simp [hx, hne]
  induction h with
  | @here v hv hg =>
    by_cases hvw : v = w
    · subst hvw
      exact Or.inr (Or.inl hg)
    · exact Or.inl (LeadsOff.here (hoff hv hvw) hg)
  | @next v x hv hn _ ih =>
    rcases ih with ih | ih
    · by_cases hvw : v = w
      · subst hvw
        exact Or.inr (Or.inr ⟨x, hn, ih⟩)
      · exact Or.inl (LeadsOff.next (hoff hv hvw) hn ih)
    · exact Or.inr ih

theorem leadsOff_iff : LeadsOff next goal path v ↔
    v ∉ path ∧ (goal v ∨ ∃ x, next v x ∧ LeadsOff next goal (v :: path) x) := by
  constructor
  · intro h
    refine ⟨h.off, ?_⟩
    rcases h.meets v with hagain | hmeets
    · exact absurd List.mem_cons_self hagain.off
    · exact hmeets
  · rintro ⟨hv, hg | ⟨x, hn, hx⟩⟩
    · exact LeadsOff.here hv hg
    · exact LeadsOff.next hv hn hx.shorter

/-- How many of the vertices are not on the path. -/
def left [DecidableEq V] (all path : List V) : Nat := (all.filter fun v => v ∉ path).length

theorem left_cons_lt [DecidableEq V] {all : List V} (hall : v ∈ all) (hv : v ∉ path) :
    left all (v :: path) < left all path := by
  unfold left
  have hsplit : (all.filter fun x => x ∉ v :: path) =
      (all.filter fun x => x ∉ path).filter fun x => x ≠ v := by
    rw [List.filter_filter]
    apply List.filter_congr
    intro x _
    simp [not_or]
  rw [hsplit]
  apply List.length_filter_lt_length_iff_exists.mpr
  exact ⟨v, List.mem_filter.mpr ⟨hall, by simpa using hv⟩, by simp⟩

end cuts
