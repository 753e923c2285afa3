import Mathlib.Data.List.Count

/-!
# Counting what is still to be waited for

Edges are a list of pairs, where an edge may stand more than once. What has to be waited for
at an end of edges is counted by the edges to it that start outside of what is done. The count
goes down by one for every edge from what is done next.
-/

namespace Forge.Common

variable {α : Type*} [DecidableEq α] (edges : List (α × α))

/-- The ends of the edges from a start, in their order. -/
def successors (a : α) : List α := (edges.filter fun edge => edge.1 = a).map Prod.snd

/-- The number of edges to an end from what is not done. -/
def waitsFor (done : List α) (b : α) : ℕ := edges.countP fun edge => edge.2 = b ∧ edge.1 ∉ done

/-- At the beginning every edge has to be waited for. -/
theorem waitsFor_nil (b : α) : waitsFor edges [] b = edges.countP fun edge => edge.2 = b := by
  simp [waitsFor]

variable {edges} {done : List α}

/-- A successor is the end of an edge. -/
theorem mem_successors_iff {a b : α} : b ∈ successors edges a ↔ (a, b) ∈ edges := by
  rw [successors, List.mem_map]
  constructor
  · rintro ⟨edge, hedge, rfl⟩
    obtain ⟨hmem, ha⟩ := List.mem_filter.mp hedge
    rwa [← of_decide_eq_true ha]
  · intro hmem
    exact ⟨(a, b), List.mem_filter.mpr ⟨hmem, decide_eq_true rfl⟩, rfl⟩

/-- There is nothing to wait for when all edges start at what is done. -/
theorem waitsFor_eq_zero_iff {b : α} : waitsFor edges done b = 0 ↔ ∀ a, (a, b) ∈ edges → a ∈ done := by
  rw [waitsFor, List.countP_eq_zero]
  constructor
  · intro hnone a hmem
    by_contra hdone
    exact hnone (a, b) hmem (decide_eq_true ⟨rfl, hdone⟩)
  · rintro hall ⟨a, b'⟩ hmem hcounted
    obtain ⟨rfl, hdone⟩ := of_decide_eq_true hcounted
    exact hdone (hall a hmem)

/-- What is done next takes its edges off the count. -/
theorem waitsFor_concat {a : α} (ha : a ∉ done) (b : α) :
    waitsFor edges done b = waitsFor edges (done ++ [a]) b + (successors edges a).count b := by
  induction edges with
  | nil => rfl
  | cons edge edges ih =>
    obtain ⟨x, y⟩ := edge
    unfold waitsFor successors at ih ⊢
    simp only [List.countP_cons, List.filter_cons, decide_eq_true_eq, List.mem_append, List.mem_singleton, not_or]
      at ih ⊢
    by_cases hx : x = a
    · subst hx
      by_cases hy : y = b
      · subst hy
        simp [ha] at ih ⊢
        omega
      · simp [hy] at ih ⊢
        exact ih
    · by_cases hy : y = b
      · subst hy
        by_cases hdone : x ∈ done
        · simp [hx, hdone] at ih ⊢
          exact ih
        · simp [hx, hdone] at ih ⊢
          omega
      · simp [hx, hy] at ih ⊢
        exact ih

end Forge.Common
