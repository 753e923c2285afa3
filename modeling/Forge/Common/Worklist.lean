import Forge.Common.Reachability
import Mathlib.Algebra.BigOperators.Group.Finset.Basic

/-!
# Worklists that expand a key once

A search takes items off a stack. Items may have the same key, and a key may be pending more
than once: the first item that comes off the stack with a key is expanded, and the others are
passed over. What is expanded has the keys that can be reached, each of them once, and the
search ends when it has gone through the items that it can meet.
-/

namespace Forge.Common

open Relation

variable {ι κ : Type*} [DecidableEq κ] (key : ι → κ) (next : κ → List ι)

/-- Expand the items of a stack and those that come behind them. What has been expanded is
collected, with the latest item first. -/
def worklist : ℕ → List ι → List ι → Option (List ι)
  | _, [], expanded => some expanded
  | 0, _ :: _, _ => none
  | fuel + 1, item :: stack, expanded =>
    if key item ∈ expanded.map key then worklist fuel stack expanded
    else
      worklist fuel
        (((next (key item)).filter fun other => key other ∉ (item :: expanded).map key).reverse ++ stack)
        (item :: expanded)

/-- From one key to the key of an item behind it. -/
def Leads (k k' : κ) : Prop := ∃ item ∈ next k, key item = k'

/-- The number of items behind keys that have not been expanded. -/
def unexpanded (carrier : Finset κ) (done : List κ) : ℕ :=
  ∑ k ∈ carrier.filter fun k => k ∉ done, (next k).length

/-- What a worklist keeps about its stack and the items that it has expanded. -/
structure Searched (roots stack expanded : List ι) : Prop where
  frontier : Frontier (Leads key next) {k | k ∈ roots.map key} {k | k ∈ expanded.map key} {k | k ∈ stack.map key}
  nodup : (expanded.map key).Nodup
  origin : ∀ item ∈ stack ++ expanded, item ∈ roots ∨ ∃ k, item ∈ next k

variable {key next} {roots stack expanded : List ι} {item : ι}

/-- A search that ended does not need more steps. -/
theorem worklist_mono {fuel fuel' : ℕ} (hle : fuel ≤ fuel') {all : List ι}
    (h : worklist key next fuel stack expanded = some all) : worklist key next fuel' stack expanded = some all := by
  induction fuel generalizing fuel' stack expanded with
  | zero =>
    cases stack with
    | nil => rwa [worklist] at h ⊢
    | cons item stack => exact absurd h nofun
  | succ fuel ih =>
    obtain ⟨more, rfl⟩ : ∃ more, fuel' = more + 1 := ⟨fuel' - 1, by omega⟩
    cases stack with
    | nil => exact h
    | cons item stack =>
      rw [worklist] at h ⊢
      by_cases hkey : key item ∈ expanded.map key
      · rw [if_pos hkey] at h ⊢
        exact ih (by omega) h
      · rw [if_neg hkey] at h ⊢
        exact ih (by omega) h

/-- To expand a key takes the items behind it off what is left. -/
theorem unexpanded_cons {carrier : Finset κ} (hcarrier : ∀ k, k ∉ carrier → next k = []) {done : List κ} {k : κ}
    (hk : k ∉ done) : unexpanded next carrier (k :: done) + (next k).length = unexpanded next carrier done := by
  have hrest : (carrier.filter fun a => a ∉ k :: done) = (carrier.filter fun a => a ∉ done).erase k := by
    ext a
    simp only [Finset.mem_filter, Finset.mem_erase, List.mem_cons, not_or]
    tauto
  rw [unexpanded, unexpanded, hrest]
  by_cases hmem : k ∈ carrier
  · exact Finset.sum_erase_add _ _ (Finset.mem_filter.mpr ⟨hmem, hk⟩)
  · have hnot : k ∉ carrier.filter fun a => a ∉ done := fun h => hmem (Finset.mem_filter.mp h).1
    rw [Finset.erase_eq_of_notMem hnot, hcarrier k hmem, List.length_nil, Nat.add_zero]

omit [DecidableEq κ] in
/-- A search starts with its roots on the stack. -/
theorem Searched.start (key : ι → κ) (next : κ → List ι) (roots : List ι) : Searched key next roots roots [] where
  frontier := by
    have hnone : {k | k ∈ ([] : List ι).map key} = (∅ : Set κ) := by simp
    rw [hnone]
    exact Frontier.start _ _
  nodup := List.nodup_nil
  origin := by
    intro item hitem
    rw [List.append_nil] at hitem
    exact Or.inl hitem

omit [DecidableEq κ] in
/-- An item whose key has been expanded is passed over. -/
theorem Searched.skip (h : Searched key next roots (item :: stack) expanded) (hkey : key item ∈ expanded.map key) :
    Searched key next roots stack expanded where
  frontier := by
    refine h.frontier.advance ?_ ?_ ?_
    · rintro k (hk | hk)
      · exact Or.inl hk
      · rcases List.mem_cons.mp hk with rfl | hk
        · exact Or.inl hkey
        · exact Or.inr hk
    · rintro k (hk | hk)
      · exact Or.inl (Or.inl hk)
      · exact Or.inl (Or.inr (List.mem_cons_of_mem _ hk))
    · intro k hk hnot
      exact absurd hk hnot
  nodup := h.nodup
  origin := fun other hother => h.origin other (List.mem_cons_of_mem _ hother)

/-- An item with a new key is expanded: the items behind it that are new are put on the stack. -/
theorem Searched.expand (h : Searched key next roots (item :: stack) expanded) (hkey : key item ∉ expanded.map key) :
    Searched key next roots
      (((next (key item)).filter fun other => key other ∉ (item :: expanded).map key).reverse ++ stack)
      (item :: expanded) where
  frontier := by
    refine h.frontier.advance ?_ ?_ ?_
    · rintro k (hk | hk)
      · exact Or.inl (List.mem_cons_of_mem _ hk)
      · rcases List.mem_cons.mp hk with rfl | hk
        · exact Or.inl List.mem_cons_self
        · exact Or.inr (List.map_append ▸ List.mem_append_right _ hk)
    · rintro k (hk | hk)
      · rcases List.mem_cons.mp hk with rfl | hk
        · exact Or.inl (Or.inr List.mem_cons_self)
        · exact Or.inl (Or.inl hk)
      · obtain ⟨other, hother, rfl⟩ := List.mem_map.mp hk
        rcases List.mem_append.mp hother with hnew | hold
        · have hnext := (List.mem_filter.mp (List.mem_reverse.mp hnew)).1
          exact Or.inr ⟨key item, Or.inr List.mem_cons_self, other, hnext, rfl⟩
        · exact Or.inl (Or.inr (List.mem_cons_of_mem _ (List.mem_map_of_mem hold)))
    · intro k hk hnot k' hedge
      obtain rfl : k = key item := (List.mem_cons.mp hk).resolve_right hnot
      obtain ⟨other, hother, rfl⟩ := hedge
      by_cases hdone : key other ∈ (item :: expanded).map key
      · exact Or.inl hdone
      · refine Or.inr (List.mem_map_of_mem (List.mem_append_left _ (List.mem_reverse.mpr ?_)))
        exact List.mem_filter.mpr ⟨hother, decide_eq_true hdone⟩
  nodup := List.nodup_cons.mpr ⟨hkey, h.nodup⟩
  origin := by
    intro other hother
    rcases List.mem_append.mp hother with hstack | hdone
    · rcases List.mem_append.mp hstack with hnew | hold
      · exact Or.inr ⟨key item, (List.mem_filter.mp (List.mem_reverse.mp hnew)).1⟩
      · exact h.origin other (List.mem_cons_of_mem _ (List.mem_append_left _ hold))
    · rcases List.mem_cons.mp hdone with rfl | hold
      · exact h.origin other List.mem_cons_self
      · exact h.origin other (List.mem_cons_of_mem _ (List.mem_append_right _ hold))

/-- A search ends, and has expanded what it reached from its roots. -/
theorem Searched.run {carrier : Finset κ} (hcarrier : ∀ k, k ∉ carrier → next k = []) (fuel : ℕ)
    (h : Searched key next roots stack expanded)
    (hfuel : stack.length + unexpanded next carrier (expanded.map key) ≤ fuel) :
    ∃ all, worklist key next fuel stack expanded = some all ∧ Searched key next roots [] all := by
  induction fuel generalizing stack expanded with
  | zero =>
    obtain rfl : stack = [] := List.eq_nil_of_length_eq_zero (by omega)
    exact ⟨expanded, rfl, h⟩
  | succ fuel ih =>
    cases stack with
    | nil => exact ⟨expanded, rfl, h⟩
    | cons item stack =>
      rw [List.length_cons] at hfuel
      rw [worklist]
      by_cases hkey : key item ∈ expanded.map key
      · rw [if_pos hkey]
        exact ih (h.skip hkey) (by omega)
      · rw [if_neg hkey]
        refine ih (h.expand hkey) ?_
        have hleft := unexpanded_cons hcarrier hkey
        have hnew := List.length_filter_le (fun other => decide (key other ∉ (item :: expanded).map key))
          (next (key item))
        rw [List.length_append, List.length_reverse, List.map_cons]
        rw [List.map_cons] at hnew
        omega

omit [DecidableEq κ] in
/-- The keys of the items that a search has expanded are those that its roots lead to. -/
theorem Searched.mem_iff (h : Searched key next roots [] expanded) {k : κ} :
    k ∈ expanded.map key ↔ ∃ root ∈ roots, ReflTransGen (Leads key next) (key root) k := by
  have hfrontier := h.frontier
  have hnone : {k | k ∈ ([] : List ι).map key} = (∅ : Set κ) := by simp
  rw [hnone] at hfrontier
  have hreach : k ∈ {k | k ∈ expanded.map key} ↔ k ∈ reachSet (Leads key next) {k | k ∈ roots.map key} := by
    rw [hfrontier.complete]
  constructor
  · intro hk
    obtain ⟨a, ha, hpath⟩ := hreach.mp hk
    obtain ⟨root, hroot, rfl⟩ := List.mem_map.mp ha
    exact ⟨root, hroot, hpath⟩
  · rintro ⟨root, hroot, hpath⟩
    exact hreach.mpr ⟨key root, List.mem_map_of_mem hroot, hpath⟩

end Forge.Common
