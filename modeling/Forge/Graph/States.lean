import Forge.Graph.WellFormed

/-!
# Node states and the shape of a graph

Running a build changes the states of the nodes and nothing else. `stateOf` reads a state,
`withState` is the effect of a successful `setState`, and `SameShape` says that two graphs
differ in their states only. The invariant of a graph speaks about its shape alone, so it
is kept by everything the schedulers do.
-/

namespace Forge.Graph.BuildGraph

variable {T : Type*}

/-- The state of a node, if there is one. -/
def stateOf (g : BuildGraph T) (id : ℕ) : Option TaskState := (g.node id).map (·.state)

/-- The payload of a node, if there is one. -/
def payloadOf (g : BuildGraph T) (id : ℕ) : Option T := (g.node id).map (·.payload)

/-- The graph with the state of one node overwritten. -/
def withState (g : BuildGraph T) (id : ℕ) (state : TaskState) : BuildGraph T :=
  { g with nodes := g.nodes.modify id fun node => { node with state := state } }

/-- Two graphs that differ in the states of their nodes only. -/
structure SameShape (g g' : BuildGraph T) : Prop where
  deps : g'.deps = g.deps
  dependents : g'.dependents = g.dependents
  nodes : g'.nodes.map (fun node => (node.id, node.payload)) =
    g.nodes.map fun node => (node.id, node.payload)

/-- A graph has its own shape. -/
theorem SameShape.refl (g : BuildGraph T) : g.SameShape g := ⟨rfl, rfl, rfl⟩

/-- Shapes are compared transitively. -/
theorem SameShape.trans {g g' g'' : BuildGraph T} (h : g.SameShape g') (h' : g'.SameShape g'') :
    g.SameShape g'' where
  deps := h'.deps.trans h.deps
  dependents := h'.dependents.trans h.dependents
  nodes := h'.nodes.trans h.nodes

/-- The number of nodes belongs to the shape. -/
theorem SameShape.len {g g' : BuildGraph T} (h : g.SameShape g') : g'.len = g.len := by
  have hlength := congrArg List.length h.nodes
  rw [List.length_map, List.length_map] at hlength
  exact hlength

/-- The dependencies belong to the shape. -/
theorem SameShape.depList {g g' : BuildGraph T} (h : g.SameShape g') (id : ℕ) :
    g'.depList id = g.depList id := by
  rw [BuildGraph.depList, BuildGraph.depList, h.deps]

/-- The dependents belong to the shape. -/
theorem SameShape.dependentList {g g' : BuildGraph T} (h : g.SameShape g') (id : ℕ) :
    g'.dependentList id = g.dependentList id := by
  rw [BuildGraph.dependentList, BuildGraph.dependentList, h.dependents]

/-- The edges belong to the shape. -/
theorem SameShape.edge {g g' : BuildGraph T} (h : g.SameShape g') : g'.Edge = g.Edge := by
  funext a b
  rw [Edge, Edge, h.dependentList]

/-- Identifier and payload of each node belong to the shape. -/
theorem SameShape.node {g g' : BuildGraph T} (h : g.SameShape g') (id : ℕ) :
    (g'.node id).map (fun node => (node.id, node.payload)) =
      (g.node id).map fun node => (node.id, node.payload) := by
  have hget := congrArg (fun l => l[id]?) h.nodes
  simp only [List.getElem?_map] at hget
  exact hget

/-- The payloads belong to the shape. -/
theorem SameShape.payloadOf {g g' : BuildGraph T} (h : g.SameShape g') (id : ℕ) :
    g'.payloadOf id = g.payloadOf id := by
  have hpair := congrArg (Option.map Prod.snd) (h.node id)
  simp only [Option.map_map, Function.comp_def] at hpair
  exact hpair

/-- The invariant of a graph depends on its shape only. -/
theorem SameShape.wellFormed {g g' : BuildGraph T} (h : g.SameShape g') (hwf : g.WellFormed) :
    g'.WellFormed where
  ids := by
    intro i node hnode
    have hshape := h.node i
    rw [BuildGraph.node, hnode, Option.map_some] at hshape
    obtain ⟨original, horiginal, heq⟩ := Option.map_eq_some_iff.mp hshape.symm
    have hid := hwf.ids i original horiginal
    rw [Prod.mk.injEq] at heq
    exact heq.1.symm.trans hid
  depsLength := by
    rw [h.deps, hwf.depsLength]
    exact h.len.symm
  dependentsLength := by
    rw [h.dependents, hwf.dependentsLength]
    exact h.len.symm
  mirror := by
    intro a b
    rw [h.depList, h.dependentList]
    exact hwf.mirror a b
  inRange := by
    rw [h.edge, h.len]
    exact hwf.inRange
  acyclic := by
    rw [h.edge]
    exact hwf.acyclic

/-- Overwriting a state keeps the shape. -/
theorem sameShape_withState (g : BuildGraph T) (id : ℕ) (state : TaskState) :
    g.SameShape (g.withState id state) := by
  refine ⟨rfl, rfl, ?_⟩
  apply List.ext_getElem?
  intro i
  rw [withState, List.getElem?_map, List.getElem?_map, List.getElem?_modify]
  by_cases hid : id = i
  · cases hnode : g.nodes[i]? with
    | none => simp
    | some node => simp [hid]
  · simp [hid]

/-- Resetting the states keeps the shape. -/
theorem sameShape_resetStates (g : BuildGraph T) : g.SameShape g.resetStates := by
  refine ⟨rfl, rfl, ?_⟩
  simp [resetStates, Function.comp_def]

/-- After a reset every node is pending. -/
theorem stateOf_resetStates (g : BuildGraph T) (id : ℕ) :
    g.resetStates.stateOf id = if id < g.len then some .pending else none := by
  rw [stateOf, node, resetStates, List.getElem?_map]
  by_cases hid : id < g.nodes.length
  · simp [hid, len]
  · simp [len, hid]

/-- A node has a state exactly when its identifier is in range. -/
theorem stateOf_eq_none_iff (g : BuildGraph T) (id : ℕ) : g.stateOf id = none ↔ g.len ≤ id := by
  simp [stateOf, node, len]

/-- A node with a state is in range. -/
theorem lt_len_of_stateOf {g : BuildGraph T} {id : ℕ} {state : TaskState}
    (h : g.stateOf id = some state) : id < g.len := by
  by_contra hge
  rw [(g.stateOf_eq_none_iff id).mpr (Nat.le_of_not_lt hge)] at h
  contradiction

/-- A node in range has a state. -/
theorem exists_stateOf {g : BuildGraph T} {id : ℕ} (h : id < g.len) :
    ∃ state, g.stateOf id = some state := by
  cases hstate : g.stateOf id with
  | none => exact absurd ((g.stateOf_eq_none_iff id).mp hstate) (Nat.not_le_of_lt h)
  | some state => exact ⟨state, rfl⟩

/-- The state after overwriting one node. -/
theorem stateOf_withState (g : BuildGraph T) {id : ℕ} (h : id < g.len) (state : TaskState) (x : ℕ) :
    (g.withState id state).stateOf x = if x = id then some state else g.stateOf x := by
  rw [stateOf, node, withState, List.getElem?_modify]
  by_cases hx : x = id
  · have hlt : id < g.nodes.length := h
    have hget : g.nodes[id]? = some g.nodes[id] := List.getElem?_eq_getElem hlt
    simp [hx, hget]
  · simp [hx, Ne.symm hx, stateOf, node]

/-- Looking up the state of a node. -/
theorem state_eq (g : BuildGraph T) (id : ℕ) :
    g.state id = match g.stateOf id with
      | some state => .ok state
      | none => .error (.missingNode id) := by
  rw [state, stateOf]
  cases g.node id <;> rfl

/-- Setting the state of a node in range succeeds. -/
theorem setState_eq (g : BuildGraph T) {id : ℕ} (h : id < g.len) (state : TaskState) :
    g.setState id state = (.ok (), g.withState id state) := by
  have hlt : id < g.nodes.length := h
  have hnode : g.node id = some g.nodes[id] := List.getElem?_eq_getElem hlt
  rw [setState, hnode, withState]

/-- Setting the state of an unknown node changes nothing. -/
theorem setState_missing (g : BuildGraph T) {id : ℕ} (h : g.len ≤ id) (state : TaskState) :
    g.setState id state = (.error (.missingNode id), g) := by
  have hnode : g.node id = none := List.getElem?_eq_none h
  rw [setState, hnode]

/-- Setting a state keeps the shape, whether or not the node exists. -/
theorem sameShape_setState (g : BuildGraph T) (id : ℕ) (state : TaskState) :
    g.SameShape (g.setState id state).2 := by
  cases Nat.lt_or_ge id g.len with
  | inl hlt =>
    rw [g.setState_eq hlt]
    exact g.sameShape_withState id state
  | inr hge =>
    rw [g.setState_missing hge]
    exact SameShape.refl g

end Forge.Graph.BuildGraph
