import Forge.Graph.WellFormed
import Mathlib.Data.List.Nodup
import Mathlib.Data.List.Range

/-!
# The topological order of a build graph

The sort keeps, for every node, the number of its dependency edges whose tail is not in the
order yet. The invariant states this number exactly, counting parallel edges, also in the
middle of releasing the dependents of the last node. On a well-formed graph every node is
listed once, after all of its dependencies, and so `validate` accepts the graph.
-/

namespace Forge.Graph.BuildGraph

open Forge.Common

variable {T : Type*}

/-- The sort's bookkeeping while `rest` is what remains to be released: indegrees count the
unordered dependencies, and the ordered or queued nodes are those of indegree zero. -/
structure TopologicalInv (g : BuildGraph T) (indegree : List ℕ) (ready order rest : List ℕ) :
    Prop where
  counted : ∀ id < g.len,
    indegree[id]? = some ((g.depList id).countP (· ∉ order) + rest.count id)
  queued : ∀ id, id ∈ order ++ ready ↔ id < g.len ∧ indegree[id]? = some 0
  nodup : (order ++ ready).Nodup
  sorted : order.Pairwise fun a b => ¬ g.Edge b a

/-- Ordering one more node takes its edges out of the count of missing dependencies. -/
theorem countP_not_mem_append (deps order : List ℕ) (id : ℕ) (h : id ∉ order) :
    deps.countP (· ∉ order) = deps.countP (· ∉ order ++ [id]) + deps.count id := by
  induction deps with
  | nil => rfl
  | cons dep deps ih =>
    simp only [List.countP_cons, List.count_cons, ih]
    by_cases hdep : dep = id
    · subst hdep
      simp [h]
      omega
    · by_cases hmem : dep ∈ order
      · simp [hdep, hmem]
      · simp [hdep, hmem]
        omega

/-- Releasing one dependent keeps the bookkeeping exact. -/
theorem TopologicalInv.release {g : BuildGraph T} {indegree ready order rest : List ℕ}
    {dependent : ℕ} (h : TopologicalInv g indegree ready order (dependent :: rest))
    (hlt : dependent < g.len) :
    TopologicalInv g (indegree.modify dependent (· - 1))
      (if (indegree.modify dependent (· - 1))[dependent]? = some 0 then ready ++ [dependent]
        else ready) order rest := by
  have hold : indegree[dependent]? =
      some ((g.depList dependent).countP (· ∉ order) + (rest.count dependent + 1)) := by
    rw [h.counted dependent hlt, List.count_cons_self]
  have hnew : (indegree.modify dependent (· - 1))[dependent]? =
      some ((g.depList dependent).countP (· ∉ order) + rest.count dependent) := by
    rw [List.getElem?_modify_eq, hold]
    rfl
  have hother : ∀ id, id ≠ dependent →
      (indegree.modify dependent (· - 1))[id]? = indegree[id]? := by
    intro id hid
    simp [Ne.symm hid]
  -- a dependent with an edge left to release has not been queued before
  have hfresh : dependent ∉ order ++ ready := by
    intro hmem
    have hzero := ((h.queued dependent).mp hmem).2
    rw [hold, Option.some.injEq] at hzero
    omega
  have hcounted : ∀ id < g.len, (indegree.modify dependent (· - 1))[id]? =
      some ((g.depList id).countP (· ∉ order) + rest.count id) := by
    intro id hid
    by_cases heq : id = dependent
    · rw [heq, hnew]
    · rw [hother id heq, h.counted id hid, List.count_cons_of_ne (Ne.symm heq)]
  by_cases hzero : (indegree.modify dependent (· - 1))[dependent]? = some 0
  · rw [if_pos hzero]
    refine ⟨hcounted, ?_, ?_, h.sorted⟩
    · intro id
      by_cases heq : id = dependent
      · subst heq
        simp [hzero, hlt]
      · rw [hother id heq, ← h.queued id]
        simp [heq]
    · rw [← List.append_assoc]
      exact h.nodup.append (List.nodup_singleton _) (by simpa using hfresh)
  · rw [if_neg hzero]
    refine ⟨hcounted, ?_, h.nodup, h.sorted⟩
    intro id
    by_cases heq : id = dependent
    · subst heq
      exact iff_of_false hfresh fun hboth => hzero hboth.2
    · rw [hother id heq, h.queued id]

/-- Releasing all dependents of the last ordered node finishes its round. -/
theorem releaseDependents_inv {g : BuildGraph T} {order : List ℕ} (rest indegree ready : List ℕ)
    (h : TopologicalInv g indegree ready order rest) (hrest : ∀ id ∈ rest, id < g.len) :
    TopologicalInv g (releaseDependents rest indegree ready).1
      (releaseDependents rest indegree ready).2 order [] := by
  induction rest generalizing indegree ready with
  | nil => exact h
  | cons dependent rest ih =>
    have hnext := h.release (hrest dependent List.mem_cons_self)
    have hlater : ∀ id ∈ rest, id < g.len := fun id hid => hrest id (List.mem_cons_of_mem _ hid)
    simp only [releaseDependents]
    split
    · rename_i hzero
      rw [if_pos hzero] at hnext
      exact ih _ _ hnext hlater
    · rename_i hzero
      rw [if_neg hzero] at hnext
      exact ih _ _ hnext hlater

/-- A node of the order has all its dependencies in the order. -/
theorem TopologicalInv.deps_mem {g : BuildGraph T} {indegree ready order : List ℕ}
    (h : TopologicalInv g indegree ready order []) {id : ℕ} (hid : id ∈ order ++ ready) :
    ∀ dep ∈ g.depList id, dep ∈ order := by
  obtain ⟨hlt, hzero⟩ := (h.queued id).mp hid
  rw [h.counted id hlt, Option.some.injEq, List.count_nil, Nat.add_zero, List.countP_eq_zero] at hzero
  intro dep hdep
  simpa using hzero dep hdep

/-- Taking the next ready node starts the release of its dependents. -/
theorem TopologicalInv.pop {g : BuildGraph T} (hwf : g.WellFormed) {indegree ready order : List ℕ}
    {id : ℕ} (h : TopologicalInv g indegree (id :: ready) order []) :
    TopologicalInv g indegree ready (order ++ [id]) (g.dependentList id) := by
  have hnotmem : id ∉ order := by
    intro hmem
    exact (List.nodup_append.mp h.nodup).2.2 id hmem id List.mem_cons_self rfl
  refine ⟨?_, ?_, ?_, ?_⟩
  · intro x hx
    rw [h.counted x hx, countP_not_mem_append _ _ id hnotmem, hwf.mirror id x, List.count_nil,
      Nat.add_zero]
  · intro x
    rw [← h.queued x]
    simp
  · simpa using h.nodup
  · refine List.pairwise_append.mpr ⟨h.sorted, List.pairwise_singleton _ _, ?_⟩
    intro a ha b hb hedge
    rw [List.mem_singleton.mp hb] at hedge
    exact hnotmem (h.deps_mem (List.mem_append_left _ ha) id (hwf.mem_depList_iff.mpr hedge))

/-- What the finished order satisfies: it lists nodes once, respects every edge, and holds
exactly the nodes whose dependencies it holds. -/
structure IsTopological (g : BuildGraph T) (order : List ℕ) : Prop where
  nodup : order.Nodup
  sorted : order.Pairwise fun a b => ¬ g.Edge b a
  closed : ∀ id, id ∈ order ↔ id < g.len ∧ ∀ dep ∈ g.depList id, dep ∈ order

/-- A list of distinct node identifiers is no longer than the graph. -/
theorem length_le_of_nodup {g : BuildGraph T} {order : List ℕ} (hnodup : order.Nodup)
    (hlt : ∀ id ∈ order, id < g.len) : order.length ≤ g.len := by
  have hsub : order ⊆ List.range g.len := fun id hid => List.mem_range.mpr (hlt id hid)
  simpa using (hnodup.subperm hsub).length_le

/-- Run to its end, the loop yields a topological order. -/
theorem topologicalLoop_isTopological {g : BuildGraph T} (hwf : g.WellFormed) (fuel : ℕ)
    (indegree ready order : List ℕ) (h : TopologicalInv g indegree ready order [])
    (hfuel : g.len + 1 ≤ fuel + order.length) :
    g.IsTopological (topologicalLoop g fuel indegree ready order) := by
  induction fuel generalizing indegree ready order with
  | zero =>
    have hle := length_le_of_nodup (g := g) (List.nodup_append.mp h.nodup).1
      fun id hid => ((h.queued id).mp (List.mem_append_left _ hid)).1
    omega
  | succ fuel ih =>
    cases ready with
    | nil =>
      simp only [topologicalLoop]
      refine ⟨by simpa using h.nodup, h.sorted, ?_⟩
      intro id
      have hqueued := h.queued id
      rw [List.append_nil] at hqueued
      rw [hqueued]
      refine and_congr_right fun hlt => ?_
      rw [h.counted id hlt, Option.some.injEq, List.count_nil, Nat.add_zero, List.countP_eq_zero]
      simp
    | cons id ready =>
      simp only [topologicalLoop]
      apply ih
      · exact releaseDependents_inv _ _ _ (h.pop hwf) fun x hx => hwf.inRange id x hx
      · simp only [List.length_append, List.length_singleton]
        omega

/-- The sort starts with the nodes without dependencies. -/
theorem topologicalInv_start {g : BuildGraph T} (hwf : g.WellFormed) :
    TopologicalInv g (g.deps.map List.length)
      ((g.deps.zipIdx.filter fun (deps, _) => deps.isEmpty).map Prod.snd) [] [] := by
  have hget : ∀ id < g.len, g.deps[id]? = some (g.depList id) := by
    intro id hid
    have hlt : id < g.deps.length := by rw [hwf.depsLength]; exact hid
    simp [depList, List.getElem?_eq_getElem hlt]
  refine ⟨?_, ?_, ?_, List.Pairwise.nil⟩
  · intro id hid
    rw [List.getElem?_map, hget id hid]
    simp
  · intro id
    simp only [List.nil_append, List.mem_map, List.mem_filter, List.mem_zipIdx_iff_getElem?,
      Prod.exists, exists_eq_right, List.getElem?_map]
    constructor
    · intro hmem
      obtain ⟨deps, hdeps, hempty⟩ := hmem
      have hid : id < g.len := by
        have hlt := (List.getElem?_eq_some_iff.mp hdeps).1
        rwa [hwf.depsLength] at hlt
      rw [List.isEmpty_iff] at hempty
      exact ⟨hid, by rw [hdeps, hempty]; rfl⟩
    · intro hmem
      obtain ⟨hid, hzero⟩ := hmem
      rw [hget id hid, Option.map_some, Option.some.injEq] at hzero
      exact ⟨g.depList id, hget id hid, by rw [List.isEmpty_iff]; exact List.eq_nil_of_length_eq_zero hzero⟩
  · rw [List.nil_append]
    have hsub : ((g.deps.zipIdx.filter fun (deps, _) => deps.isEmpty).map Prod.snd).Sublist
        (g.deps.zipIdx.map Prod.snd) := List.filter_sublist.map _
    refine hsub.nodup ?_
    rw [List.zipIdx_map_snd]
    exact List.nodup_range'

/-- The computed order is topological. -/
theorem WellFormed.isTopological {g : BuildGraph T} (hwf : g.WellFormed) :
    g.IsTopological g.topologicalOrder :=
  topologicalLoop_isTopological hwf _ _ _ _ (topologicalInv_start hwf) (by simp)

/-- Acyclicity leaves no node out of the order. -/
theorem WellFormed.mem_topologicalOrder {g : BuildGraph T} (hwf : g.WellFormed) (id : ℕ) :
    id ∈ g.topologicalOrder ↔ id < g.len := by
  refine ⟨fun h => ((hwf.isTopological.closed id).mp h).1, ?_⟩
  induction id using hwf.edge_wf.induction with
  | _ id ih =>
    intro hid
    refine (hwf.isTopological.closed id).mpr ⟨hid, ?_⟩
    intro dep hdep
    exact ih dep (hwf.mem_depList_iff.mp hdep) (hwf.depList_lt hdep)

/-- The order is a rearrangement of all identifiers. -/
theorem WellFormed.topologicalOrder_perm {g : BuildGraph T} (hwf : g.WellFormed) :
    g.topologicalOrder.Perm (List.range g.len) := by
  rw [List.perm_ext_iff_of_nodup hwf.isTopological.nodup List.nodup_range]
  intro id
  rw [hwf.mem_topologicalOrder, List.mem_range]

/-- No node of a well-formed graph has a structural error. -/
theorem WellFormed.validateNode_ok {g : BuildGraph T} (hwf : g.WellFormed) (id : ℕ) :
    g.validateNode id (g.depList id) (g.dependentList id) = .ok () := by
  have hdeps : (g.depList id).find? (fun dep => decide (g.nodes.length ≤ dep) || dep == id) = none := by
    rw [List.find?_eq_none]
    intro dep hdep
    have hlt : dep < g.nodes.length := hwf.depList_lt hdep
    have hne := hwf.acyclic.irrefl (hwf.mem_depList_iff.mp hdep)
    simp [hlt, hne]
  have hdependents :
      (g.dependentList id).find? (fun dependent => decide (g.nodes.length ≤ dependent)) = none := by
    rw [List.find?_eq_none]
    intro dependent hdependent
    have hlt : dependent < g.nodes.length := hwf.inRange id dependent hdependent
    simp [hlt]
  rw [validateNode, hdeps]
  simp only [hdependents]

/-- Node validation passes on any list of entries that are the graph's own edge lists. -/
theorem WellFormed.validateNodes_ok {g : BuildGraph T} (hwf : g.WellFormed)
    (entries : List ((List ℕ × List ℕ) × ℕ))
    (h : ∀ entry ∈ entries, entry.1 = (g.depList entry.2, g.dependentList entry.2)) :
    g.validateNodes entries = .ok () := by
  induction entries with
  | nil => rfl
  | cons entry entries ih =>
    obtain ⟨⟨deps, dependents⟩, index⟩ := entry
    have hentry := h _ List.mem_cons_self
    simp only [Prod.mk.injEq] at hentry
    rw [validateNodes, hentry.1, hentry.2, hwf.validateNode_ok index]
    exact ih fun e he => h e (List.mem_cons_of_mem _ he)

/-- A well-formed graph passes validation. -/
theorem WellFormed.validate_ok {g : BuildGraph T} (hwf : g.WellFormed) : g.validate = .ok () := by
  have hnodes : g.validateNodes (g.deps.zip g.dependents).zipIdx = .ok () := by
    apply hwf.validateNodes_ok
    intro entry hentry
    rw [List.mem_zipIdx_iff_getElem?, List.getElem?_zip_eq_some] at hentry
    simp [depList, dependentList, hentry.1, hentry.2]
  have hlen : g.topologicalOrder.length = g.nodes.length := by
    simpa [len] using hwf.topologicalOrder_perm.length_eq
  rw [validate, hnodes]
  simp [hlen]

end Forge.Graph.BuildGraph
