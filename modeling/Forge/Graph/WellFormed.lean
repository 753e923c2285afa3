import Forge.Graph.Reaches

/-!
# The invariant of a build graph

Dependencies and dependents mirror each other with multiplicity, every identifier is in
range, and the edge relation has no cycle. Acyclicity rests on the cycle check of
`addDependency`, which is exact because the edges it follows stay in range, so the parts of
the invariant are carried through every operation together.
-/

namespace Forge.Graph.BuildGraph

open Relation Forge.Common

variable {T : Type*}

/-- The invariant every graph operation keeps. -/
structure WellFormed (g : BuildGraph T) : Prop where
  ids : ∀ (i : ℕ) (node : Node T), g.nodes[i]? = some node → node.id = i
  depsLength : g.deps.length = g.nodes.length
  dependentsLength : g.dependents.length = g.nodes.length
  mirror : ∀ a b : ℕ, (g.depList b).count a = (g.dependentList a).count b
  inRange : ∀ a b : ℕ, g.Edge a b → b < g.len
  acyclic : Acyclic g.Edge

/-- The dependencies of a node are the tails of its incoming edges. -/
theorem WellFormed.mem_depList_iff {g : BuildGraph T} (h : g.WellFormed) {a b : ℕ} :
    a ∈ g.depList b ↔ g.Edge a b := by
  rw [Edge, ← List.count_pos_iff, ← List.count_pos_iff, h.mirror a b]

/-- Only a node of the graph has dependents. -/
theorem WellFormed.edge_left {g : BuildGraph T} (h : g.WellFormed) {a b : ℕ}
    (hedge : g.Edge a b) : a < g.len := by
  by_contra hge
  have hnone : g.dependents[a]? = none :=
    List.getElem?_eq_none (by rw [h.dependentsLength]; exact Nat.le_of_not_lt hge)
  simp [Edge, dependentList, hnone] at hedge

/-- The edges of a well-formed graph are well founded, so node properties can be proved
from the dependencies upwards. -/
theorem WellFormed.edge_wf {g : BuildGraph T} (h : g.WellFormed) : WellFounded g.Edge :=
  h.acyclic.wellFounded (Finset.range g.len) fun _ _ hedge => Finset.mem_range.mpr (h.edge_left hedge)

/-- A dependency lies in range. -/
theorem WellFormed.depList_lt {g : BuildGraph T} (h : g.WellFormed) {a b : ℕ}
    (hmem : a ∈ g.depList b) : a < g.len :=
  h.edge_left (h.mem_depList_iff.mp hmem)

/-- In a well-formed graph the cycle check of a vertex in range is exact. -/
theorem WellFormed.reaches_iff {g : BuildGraph T} (h : g.WellFormed) {source : ℕ}
    (hsource : source < g.len) (target : ℕ) :
    g.reaches source target = true ↔ ReflTransGen g.Edge source target :=
  BuildGraph.reaches_iff g h.inRange source target hsource

/-- A node is found exactly when its identifier is in range. -/
theorem node_isNone_iff (g : BuildGraph T) (id : ℕ) :
    (g.node id).isNone = true ↔ g.len ≤ id := by
  simp [node, len]

section Frame

/-- A new node has no edges, and the others keep theirs. -/
@[simp] theorem depList_addNode (g : BuildGraph T) (payload : T) (id : ℕ) :
    (g.addNode payload).2.depList id = g.depList id := by
  simp only [addNode, depList, List.getElem?_append]
  split
  · rfl
  · rename_i hge
    rw [List.getElem?_eq_none (Nat.le_of_not_lt hge), List.getElem?_singleton]
    split <;> rfl

/-- A new node has no dependents, and the others keep theirs. -/
@[simp] theorem dependentList_addNode (g : BuildGraph T) (payload : T) (id : ℕ) :
    (g.addNode payload).2.dependentList id = g.dependentList id := by
  simp only [addNode, dependentList, List.getElem?_append]
  split
  · rfl
  · rename_i hge
    rw [List.getElem?_eq_none (Nat.le_of_not_lt hge), List.getElem?_singleton]
    split <;> rfl

/-- Adding a node adds no edge. -/
@[simp] theorem edge_addNode (g : BuildGraph T) (payload : T) :
    (g.addNode payload).2.Edge = g.Edge := by
  funext a b
  simp [Edge]

/-- Adding a node makes room for exactly one more identifier. -/
@[simp] theorem len_addNode (g : BuildGraph T) (payload : T) :
    (g.addNode payload).2.len = g.len + 1 := by
  simp [addNode, len]

/-- Recording an edge appends to the dependencies of its head only. -/
theorem depList_pushEdge (g : BuildGraph T) {dependency dependent : ℕ}
    (h : dependent < g.deps.length) (id : ℕ) :
    (g.pushEdge dependency dependent).depList id =
      if id = dependent then g.depList id ++ [dependency] else g.depList id := by
  simp only [pushEdge, depList, List.getElem?_modify]
  by_cases hid : id = dependent
  · subst hid
    simp [List.getElem?_eq_getElem h]
  · simp [hid, Ne.symm hid]

/-- Recording an edge appends to the dependents of its tail only. -/
theorem dependentList_pushEdge (g : BuildGraph T) {dependency dependent : ℕ}
    (h : dependency < g.dependents.length) (id : ℕ) :
    (g.pushEdge dependency dependent).dependentList id =
      if id = dependency then g.dependentList id ++ [dependent] else g.dependentList id := by
  simp only [pushEdge, dependentList, List.getElem?_modify]
  by_cases hid : id = dependency
  · subst hid
    simp [List.getElem?_eq_getElem h]
  · simp [hid, Ne.symm hid]

/-- Recording an edge adds exactly that edge. -/
theorem edge_pushEdge (g : BuildGraph T) {dependency dependent : ℕ}
    (h : dependency < g.dependents.length) :
    (g.pushEdge dependency dependent).Edge =
      fun a b => g.Edge a b ∨ (a = dependency ∧ b = dependent) := by
  funext a b
  simp only [Edge, dependentList_pushEdge g h]
  by_cases ha : a = dependency <;> simp [ha]

end Frame

/-- What `addDependency` can do: fail for one of its reasons and change nothing, or record
the edge. -/
theorem addDependency_cases (g : BuildGraph T) (dependency dependent : ℕ) :
    (∃ e, g.addDependency dependency dependent = (.error e, g) ∧
      (g.len ≤ dependency ∨ g.len ≤ dependent ∨ dependency = dependent ∨
        g.reaches dependent dependency = true)) ∨
    (dependency < g.len ∧ dependent < g.len ∧ dependency ≠ dependent ∧
      g.reaches dependent dependency = false ∧
      g.addDependency dependency dependent = (.ok (), g.pushEdge dependency dependent)) := by
  unfold addDependency
  split
  · rename_i h
    exact Or.inl ⟨_, rfl, Or.inl ((g.node_isNone_iff _).mp h)⟩
  · rename_i hdep
    split
    · rename_i h
      exact Or.inl ⟨_, rfl, Or.inr (Or.inl ((g.node_isNone_iff _).mp h))⟩
    · rename_i hdependent
      split
      · rename_i h
        exact Or.inl ⟨_, rfl, Or.inr (Or.inr (Or.inl h))⟩
      · rename_i hne
        split
        · rename_i h
          exact Or.inl ⟨_, rfl, Or.inr (Or.inr (Or.inr h))⟩
        · rename_i hreach
          rw [node_isNone_iff, not_le] at hdep hdependent
          exact Or.inr ⟨hdep, hdependent, hne, by simpa using hreach, rfl⟩

/-- The empty graph satisfies the invariant. -/
theorem WellFormed.new : (BuildGraph.new : BuildGraph T).WellFormed where
  ids := by simp [BuildGraph.new]
  depsLength := rfl
  dependentsLength := rfl
  mirror := by simp [BuildGraph.new, depList, dependentList]
  inRange := by simp [BuildGraph.new, Edge, dependentList]
  acyclic := by
    intro a hcycle
    obtain ⟨b, hedge, _⟩ := TransGen.head'_iff.mp hcycle
    simp [BuildGraph.new, Edge, dependentList] at hedge

/-- Adding a node keeps the invariant. -/
theorem WellFormed.addNode {g : BuildGraph T} (h : g.WellFormed) (payload : T) :
    (g.addNode payload).2.WellFormed where
  ids := by
    intro i node hnode
    simp only [BuildGraph.addNode, List.getElem?_append] at hnode
    split at hnode
    · exact h.ids i node hnode
    · rename_i hge
      rw [List.getElem?_singleton] at hnode
      split at hnode
      · rename_i hzero
        simp only [Option.some.injEq] at hnode
        subst hnode
        have hi : g.nodes.length = i := by omega
        exact hi
      · contradiction
  depsLength := by simp [BuildGraph.addNode, h.depsLength]
  dependentsLength := by simp [BuildGraph.addNode, h.dependentsLength]
  mirror := by simpa using h.mirror
  inRange := by
    intro a b hedge
    rw [edge_addNode] at hedge
    have hb := h.inRange a b hedge
    rw [len_addNode]
    omega
  acyclic := by rw [edge_addNode]; exact h.acyclic

/-- Recording a checked edge keeps the invariant. -/
theorem WellFormed.pushEdge {g : BuildGraph T} (h : g.WellFormed) {dependency dependent : ℕ}
    (hdependency : dependency < g.len) (hdependent : dependent < g.len)
    (hreach : g.reaches dependent dependency = false) :
    (g.pushEdge dependency dependent).WellFormed where
  ids := h.ids
  depsLength := by simp [BuildGraph.pushEdge, h.depsLength]
  dependentsLength := by simp [BuildGraph.pushEdge, h.dependentsLength]
  mirror := by
    intro a b
    rw [depList_pushEdge g (by rw [h.depsLength]; exact hdependent),
      dependentList_pushEdge g (by rw [h.dependentsLength]; exact hdependency)]
    have hcount := h.mirror a b
    by_cases ha : a = dependency
    · by_cases hb : b = dependent
      · subst ha hb
        simpa using hcount
      · subst ha
        simpa [hb, Ne.symm hb] using hcount
    · by_cases hb : b = dependent
      · subst hb
        simpa [ha, Ne.symm ha] using hcount
      · simpa [ha, hb] using hcount
  inRange := by
    intro a b hedge
    rw [edge_pushEdge g (by rw [h.dependentsLength]; exact hdependency)] at hedge
    cases hedge with
    | inl hold => exact h.inRange a b hold
    | inr hnew => rw [hnew.2]; exact hdependent
  acyclic := by
    rw [edge_pushEdge g (by rw [h.dependentsLength]; exact hdependency)]
    refine h.acyclic.insert_edge fun hback => ?_
    rw [(h.reaches_iff hdependent dependency).mpr hback] at hreach
    contradiction

/-- A dependency request keeps the invariant, whether or not it succeeds. -/
theorem WellFormed.addDependency {g : BuildGraph T} (h : g.WellFormed)
    (dependency dependent : ℕ) : (g.addDependency dependency dependent).2.WellFormed := by
  rcases g.addDependency_cases dependency dependent with ⟨e, heq, _⟩ | ⟨hd, ht, _, hr, heq⟩
  · rw [heq]; exact h
  · rw [heq]; exact h.pushEdge hd ht hr

/-- A dependency request never changes the nodes. -/
theorem nodes_addDependency (g : BuildGraph T) (dependency dependent : ℕ) :
    (g.addDependency dependency dependent).2.nodes = g.nodes := by
  rcases g.addDependency_cases dependency dependent with ⟨e, heq, _⟩ | ⟨_, _, _, _, heq⟩
  · rw [heq]
  · rw [heq]; rfl

/-- A request fails exactly for an unknown endpoint, a self edge, or a dependent that
already reaches the dependency. -/
theorem WellFormed.addDependency_error_iff {g : BuildGraph T} (h : g.WellFormed)
    (dependency dependent : ℕ) :
    (∃ e, (g.addDependency dependency dependent).1 = .error e) ↔
      g.len ≤ dependency ∨ g.len ≤ dependent ∨ dependency = dependent ∨
        ReflTransGen g.Edge dependent dependency := by
  rcases g.addDependency_cases dependency dependent with ⟨e, heq, hwhy⟩ | ⟨hd, ht, hne, hr, heq⟩
  · rw [heq]
    refine iff_of_true ⟨e, rfl⟩ ?_
    by_cases ht : g.len ≤ dependent
    · exact Or.inr (Or.inl ht)
    · rw [h.reaches_iff (not_le.mp ht)] at hwhy
      exact hwhy
  · rw [heq]
    refine iff_of_false (by simp) ?_
    rw [← h.reaches_iff ht, hr]
    simp only [Bool.false_eq_true, or_false, not_or, not_le]
    exact ⟨hd, ht, hne⟩

end Forge.Graph.BuildGraph
