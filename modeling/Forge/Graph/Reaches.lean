import Forge.Common.Reachability
import Forge.Graph.BuildGraph
import Mathlib.Algebra.BigOperators.Group.Finset.Piecewise
import Mathlib.Algebra.Order.BigOperators.Group.Finset

/-!
# The cycle check is exact

`reaches` searches breadth first along dependents and marks a vertex when it is popped, so
its queue can hold a vertex several times. The search invariant and a count of the edges
that still hang off unseen vertices give the exact answer: the target is found if and only
if a path leads to it, and the fuel always covers the remaining work.
-/

namespace Forge.Graph.BuildGraph

open Relation Forge.Common

variable {T : Type*}

/-- `dependent` is listed among the dependents of `dependency`. -/
def Edge (g : BuildGraph T) (dependency dependent : ℕ) : Prop :=
  dependent ∈ g.dependentList dependency

instance (g : BuildGraph T) (a b : ℕ) : Decidable (g.Edge a b) :=
  inferInstanceAs (Decidable (b ∈ g.dependentList a))

/-- The vertices a search has marked. -/
def marked (seen : List Bool) : Set NodeId := {id | seen[id]? = some true}

/-- Marking a vertex adds exactly that vertex. -/
theorem marked_set {seen : List Bool} {id : ℕ} (h : seen[id]? = some false) :
    marked (seen.set id true) = insert id (marked seen) := by
  ext a
  have hid : id < seen.length := (List.getElem?_eq_some_iff.mp h).1
  by_cases ha : id = a
  · subst ha
    simp [marked, List.getElem?_set, hid]
  · simp [marked, List.getElem?_set, ha, Ne.symm ha]

/-- Before the search nothing is marked. -/
theorem marked_replicate (n : ℕ) : marked (List.replicate n false) = ∅ := by
  ext a
  simp [marked, List.getElem?_replicate]

/-- A vertex in range is either marked or not. -/
theorem seen_cases {seen : List Bool} {id : ℕ} (h : id < seen.length)
    (hseen : seen[id]? ≠ some false) : id ∈ marked seen := by
  have hget : seen[id]? = some seen[id] := List.getElem?_eq_getElem h
  cases hb : seen[id] with
  | false => exact absurd (hb ▸ hget) hseen
  | true => simpa [marked, hb] using hget

/-- Marking a vertex takes exactly its own edges off the remaining work. -/
theorem unseenEdges_set (g : BuildGraph T) {seen : List Bool} {id : ℕ}
    (hid : id < g.len) (h : seen[id]? = some false) :
    g.unseenEdges (seen.set id true) + (g.dependentList id).length = g.unseenEdges seen := by
  have hlt : id < seen.length := (List.getElem?_eq_some_iff.mp h).1
  have hmem : id ∈ Finset.range g.len := Finset.mem_range.mpr hid
  have hnew : g.unseenDegree (seen.set id true) id = 0 := by simp [unseenDegree, hlt]
  have hold : g.unseenDegree seen id = (g.dependentList id).length := by simp [unseenDegree, h]
  have hrest : ∑ a ∈ (Finset.range g.len).erase id, g.unseenDegree (seen.set id true) a =
      ∑ a ∈ (Finset.range g.len).erase id, g.unseenDegree seen a := by
    apply Finset.sum_congr rfl
    intro a ha
    rw [unseenDegree, unseenDegree, List.getElem?_set_ne (Finset.ne_of_mem_erase ha).symm]
  have hbefore : g.unseenDegree seen id + ∑ a ∈ (Finset.range g.len).erase id, g.unseenDegree seen a =
      g.unseenEdges seen := Finset.add_sum_erase _ _ hmem
  have hafter : g.unseenDegree (seen.set id true) id +
      ∑ a ∈ (Finset.range g.len).erase id, g.unseenDegree (seen.set id true) a =
      g.unseenEdges (seen.set id true) := Finset.add_sum_erase _ _ hmem
  omega

/-- What the loop of `reaches` maintains about its queue and its marks. -/
structure ReachesInv (g : BuildGraph T) (source target : ℕ) (queue : List NodeId)
    (seen : List Bool) : Prop where
  frontier : Frontier g.Edge {source} (marked seen) {id | id ∈ queue}
  missed : target ∉ marked seen
  inRange : ∀ id ∈ queue, id < g.len
  length : seen.length = g.len

/-- Popping an unmarked vertex other than the target expands it. -/
theorem ReachesInv.expand {g : BuildGraph T} {source target id : ℕ} {queue : List NodeId}
    {seen : List Bool} (h : ReachesInv g source target (id :: queue) seen)
    (hrange : ∀ a b : ℕ, g.Edge a b → b < g.len) (htarget : id ≠ target)
    (hseen : seen[id]? = some false) :
    ReachesInv g source target (queue ++ g.dependentList id) (seen.set id true) where
  frontier := by
    refine h.frontier.advance ?_ ?_ ?_
    · intro a ha
      rw [marked_set hseen]
      simp only [Set.mem_union, Set.mem_ofPred_eq, List.mem_cons, Set.mem_insert_iff,
        List.mem_append] at ha ⊢
      tauto
    · intro b hb
      rw [marked_set hseen] at hb
      simp only [Set.mem_union, Set.mem_ofPred_eq, Set.mem_insert_iff, List.mem_append,
        List.mem_cons] at hb ⊢
      by_cases hedge : b ∈ g.dependentList id
      · exact Or.inr ⟨id, Or.inr (Or.inl rfl), hedge⟩
      · tauto
    · intro a ha hnot b hab
      rw [marked_set hseen] at ha
      have haid : a = id := ha.resolve_right hnot
      subst haid
      exact Or.inr (List.mem_append.mpr (Or.inr hab))
  missed := by
    rw [marked_set hseen]
    intro hmem
    exact hmem.elim (fun heq => htarget heq.symm) h.missed
  inRange := by
    intro a ha
    cases List.mem_append.mp ha with
    | inl hold => exact h.inRange a (List.mem_cons_of_mem _ hold)
    | inr hnew => exact hrange id a hnew
  length := by rw [List.length_set, h.length]

/-- Popping a marked vertex leaves the search where it was. -/
theorem ReachesInv.skip {g : BuildGraph T} {source target id : ℕ} {queue : List NodeId}
    {seen : List Bool} (h : ReachesInv g source target (id :: queue) seen)
    (hseen : seen[id]? ≠ some false) : ReachesInv g source target queue seen where
  frontier := by
    have hmarked : id ∈ marked seen :=
      seen_cases (by rw [h.length]; exact h.inRange id List.mem_cons_self) hseen
    refine h.frontier.advance ?_ ?_ ?_
    · intro a ha
      simp only [Set.mem_union, Set.mem_ofPred_eq, List.mem_cons] at ha ⊢
      rcases ha with ha | rfl | ha
      · exact Or.inl ha
      · exact Or.inl hmarked
      · exact Or.inr ha
    · intro b hb
      simp only [Set.mem_union, Set.mem_ofPred_eq, List.mem_cons] at hb ⊢
      tauto
    · intro a ha hnot
      exact absurd ha hnot
  missed := h.missed
  inRange := fun a ha => h.inRange a (List.mem_cons_of_mem _ ha)
  length := h.length

/-- From any state of the search the loop decides whether the target is reachable. -/
theorem reachesLoop_iff (g : BuildGraph T) (hrange : ∀ a b : ℕ, g.Edge a b → b < g.len)
    (source target : ℕ) (fuel : ℕ) (queue : List NodeId) (seen : List Bool)
    (h : ReachesInv g source target queue seen)
    (hfuel : queue.length + g.unseenEdges seen ≤ fuel) :
    reachesLoop g target fuel queue seen = true ↔ ReflTransGen g.Edge source target := by
  have hdone : ∀ {seen : List Bool}, ReachesInv g source target [] seen →
      ¬ ReflTransGen g.Edge source target := by
    intro seen h hpath
    have hempty : Frontier g.Edge {source} (marked seen) ∅ := by simpa using h.frontier
    exact h.missed (hempty.complete ▸ ⟨source, rfl, hpath⟩)
  induction fuel generalizing queue seen with
  | zero =>
    have hnil : queue = [] := List.eq_nil_of_length_eq_zero (by omega)
    subst hnil
    simpa [reachesLoop] using hdone h
  | succ fuel ih =>
    cases queue with
    | nil => simpa [reachesLoop] using hdone h
    | cons id queue =>
      rw [reachesLoop]
      by_cases htarget : id = target
      · subst htarget
        obtain ⟨a, ha, hpath⟩ := h.frontier.sound (b := id) (Or.inr List.mem_cons_self)
        rw [Set.mem_singleton_iff.mp ha] at hpath
        simpa using hpath
      · rw [if_neg htarget]
        by_cases hseen : seen[id]? = some false
        · rw [if_pos hseen]
          have hwork := g.unseenEdges_set (h.inRange id List.mem_cons_self) hseen
          refine ih _ _ (h.expand hrange htarget hseen) ?_
          simp only [List.length_append, List.length_cons] at hfuel ⊢
          omega
        · rw [if_neg hseen]
          refine ih _ _ (h.skip hseen) ?_
          simp only [List.length_cons] at hfuel
          omega

/-- For a vertex of the graph `reaches` is exactly reachability along dependents. -/
theorem reaches_iff (g : BuildGraph T) (hrange : ∀ a b : ℕ, g.Edge a b → b < g.len)
    (source target : ℕ) (hsource : source < g.len) :
    g.reaches source target = true ↔ ReflTransGen g.Edge source target := by
  refine reachesLoop_iff g hrange source target _ _ _ ⟨?_, ?_, ?_, ?_⟩ (by simp)
  · rw [marked_replicate]
    have hroot : {id | id ∈ [source]} = ({source} : Set NodeId) := by ext; simp
    rw [hroot]
    exact Frontier.start g.Edge {source}
  · simp [marked_replicate]
  · simpa using hsource
  · simp

end Forge.Graph.BuildGraph
