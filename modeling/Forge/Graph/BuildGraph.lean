import Mathlib.Algebra.BigOperators.Group.Finset.Basic
import Mathlib.Data.Nat.Notation

/-!
# The build graph and its operations

`BuildGraph` keeps the nodes and, for each node, the list of its dependencies and the list
of its dependents, with parallel edges kept. An operation on `&mut self` returns the new
graph next to its result, so that a failing operation still shows what it left behind.

The traversals are loops over a queue. Each carries a fuel argument that bounds the number
of its iterations; the correctness theorems about them state exact results, so the fuel
handed out here is never the reason a loop stops.
-/

namespace Forge.Graph

/-!
## Task states and graph errors

The life cycle of a node of the build graph, with the three predicates the graph and the
schedulers branch on, and the errors graph operations report. A successful state is
terminal, an unsuccessful one is terminal, and the two never overlap.
-/

/-- Node identifiers are dense indices into the graph's vectors. -/
abbrev NodeId := ℕ

/-- The life cycle of a task. -/
inductive TaskState where
  | pending
  | ready
  | running
  | succeeded
  | failed
  | skipped
  | cached
  | cancelled
  deriving DecidableEq, Repr

/-- The task will not change state by itself any more. -/
def TaskState.isTerminal : TaskState → Bool
  | .succeeded | .failed | .skipped | .cached | .cancelled => true
  | .pending | .ready | .running => false

/-- The states that let dependents run. -/
def TaskState.isSuccessful : TaskState → Bool
  | .succeeded | .skipped | .cached => true
  | .pending | .ready | .running | .failed | .cancelled => false

/-- The states that block dependents for good. -/
def TaskState.isUnsuccessful : TaskState → Bool
  | .failed | .cancelled => true
  | .pending | .ready | .running | .succeeded | .skipped | .cached => false

/-- The terminal states split into the successful and the unsuccessful ones. -/
theorem TaskState.isTerminal_eq (state : TaskState) :
    state.isTerminal = (state.isSuccessful || state.isUnsuccessful) := by
  cases state <;> rfl

/-- Success and failure exclude each other. -/
theorem TaskState.not_isUnsuccessful {state : TaskState} (h : state.isSuccessful = true) :
    state.isUnsuccessful = false := by
  cases state <;> simp_all [isSuccessful, isUnsuccessful]

/-- The errors of graph operations. -/
inductive GraphError where
  | missingNode (id : NodeId)
  | selfDependency (id : NodeId)
  | cycle (dependency dependent : NodeId)
  deriving DecidableEq, Repr

variable {T : Type*}

/-- A node with its identifier, its payload and its state. -/
structure Node (T : Type*) where
  id : NodeId
  payload : T
  state : TaskState
  deriving DecidableEq, Repr

/-- The graph: nodes, and both directions of the dependency edges. -/
structure BuildGraph (T : Type*) where
  nodes : List (Node T)
  deps : List (List NodeId)
  dependents : List (List NodeId)
  deriving DecidableEq, Repr

namespace BuildGraph

/-- The empty graph. -/
def new : BuildGraph T := ⟨[], [], []⟩

/-- The number of nodes. -/
def len (g : BuildGraph T) : ℕ := g.nodes.length

/-- Append a pending node without edges and return its identifier. -/
def addNode (g : BuildGraph T) (payload : T) : NodeId × BuildGraph T :=
  (g.nodes.length,
    { nodes := g.nodes ++ [⟨g.nodes.length, payload, .pending⟩]
      deps := g.deps ++ [[]]
      dependents := g.dependents ++ [[]] })

/-- The node with the given identifier. -/
def node (g : BuildGraph T) (id : NodeId) : Option (Node T) := g.nodes[id]?

/-- The state of a node, or the error for an unknown identifier. -/
def state (g : BuildGraph T) (id : NodeId) : Except GraphError TaskState :=
  match g.node id with
  | some node => .ok node.state
  | none => .error (.missingNode id)

/-- Overwrite the state of a node. -/
def setState (g : BuildGraph T) (id : NodeId) (state : TaskState) :
    Except GraphError Unit × BuildGraph T :=
  match g.node id with
  | none => (.error (.missingNode id), g)
  | some _ => (.ok (), { g with nodes := g.nodes.modify id fun node => { node with state := state } })

/-- The dependencies of a node, none for an unknown identifier. -/
def depList (g : BuildGraph T) (id : NodeId) : List NodeId := g.deps[id]?.getD []

/-- The dependents of a node, none for an unknown identifier. -/
def dependentList (g : BuildGraph T) (id : NodeId) : List NodeId := g.dependents[id]?.getD []

/-- The dependencies of a node, or the error for an unknown identifier. -/
def depsOf (g : BuildGraph T) (id : NodeId) : Except GraphError (List NodeId) :=
  match g.deps[id]? with
  | some deps => .ok deps
  | none => .error (.missingNode id)

/-- The dependents of a node, or the error for an unknown identifier. -/
def dependentsOf (g : BuildGraph T) (id : NodeId) : Except GraphError (List NodeId) :=
  match g.dependents[id]? with
  | some dependents => .ok dependents
  | none => .error (.missingNode id)

/-- Breadth-first search along dependents. A popped vertex is compared with the target
first and expanded only when it is in range and not yet seen. -/
def reachesLoop (g : BuildGraph T) (target : NodeId) : ℕ → List NodeId → List Bool → Bool
  | 0, _, _ => false
  | _ + 1, [], _ => false
  | fuel + 1, id :: queue, seen =>
    if id = target then true
    else if seen[id]? = some false then
      reachesLoop g target fuel (queue ++ g.dependentList id) (seen.set id true)
    else reachesLoop g target fuel queue seen

/-- The edges a search still has to follow from one vertex. -/
def unseenDegree (g : BuildGraph T) (seen : List Bool) (id : NodeId) : ℕ :=
  if seen[id]? = some false then (g.dependentList id).length else 0

/-- How many edges still hang off the vertices that were not seen yet. -/
def unseenEdges (g : BuildGraph T) (seen : List Bool) : ℕ :=
  (Finset.range g.len).sum (g.unseenDegree seen)

/-- Whether the target is reachable from the source along dependents. -/
def reaches (g : BuildGraph T) (source target : NodeId) : Bool :=
  let seen := List.replicate g.len false
  reachesLoop g target (1 + g.unseenEdges seen) [source] seen

/-- Record an edge in both directions. -/
def pushEdge (g : BuildGraph T) (dependency dependent : NodeId) : BuildGraph T :=
  { g with
    deps := g.deps.modify dependent (· ++ [dependency])
    dependents := g.dependents.modify dependency (· ++ [dependent]) }

/-- Add an edge, unless an endpoint is unknown, the endpoints coincide, or the dependent
already reaches the dependency. -/
def addDependency (g : BuildGraph T) (dependency dependent : NodeId) :
    Except GraphError Unit × BuildGraph T :=
  if (g.node dependency).isNone then (.error (.missingNode dependency), g)
  else if (g.node dependent).isNone then (.error (.missingNode dependent), g)
  else if dependency = dependent then (.error (.selfDependency dependency), g)
  else if g.reaches dependent dependency then (.error (.cycle dependency dependent), g)
  else (.ok (), g.pushEdge dependency dependent)

/-- Append copies of the given nodes, collecting their new identifiers. -/
def mergeNodes : List (Node T) → List NodeId → BuildGraph T → List NodeId × BuildGraph T
  | [], newIds, g => (newIds, g)
  | node :: rest, newIds, g =>
    let (newId, g) := g.addNode node.payload
    mergeNodes rest (newIds ++ [newId]) g

/-- Re-add the dependencies of one merged node, ignoring rejected edges. -/
def mergeDeps (newIds : List NodeId) (dependent : NodeId) :
    List NodeId → BuildGraph T → Option (BuildGraph T)
  | [], g => some g
  | dep :: rest, g =>
    match newIds[dep]? with
    | none => none
    | some dependency => mergeDeps newIds dependent rest (g.addDependency dependency dependent).2

/-- Re-add the dependencies of every merged node. -/
def mergeEdges (newIds : List NodeId) :
    List (List NodeId × ℕ) → BuildGraph T → Option (BuildGraph T)
  | [], g => some g
  | (deps, depIdx) :: rest, g =>
    match newIds[depIdx]? with
    | none => none
    | some dependent => (mergeDeps newIds dependent deps g).bind (mergeEdges newIds rest)

/-- Copy another graph into this one and return the renumbering. `none` is the panic of an
out-of-range index into the new identifiers. -/
def mergeSubgraph (g other : BuildGraph T) : Option (List (NodeId × NodeId) × BuildGraph T) :=
  let (newIds, g) := mergeNodes other.nodes [] g
  (mergeEdges newIds other.deps.zipIdx g).map fun g =>
    (newIds.zipIdx.map fun (newId, oldIdx) => (oldIdx, newId), g)

/-- Every dependency of the node is in a successful state. -/
def isReady (g : BuildGraph T) (id : NodeId) : Except GraphError Bool :=
  match g.depsOf id with
  | .error e => .error e
  | .ok deps =>
    .ok (deps.all fun dep =>
      match g.state dep with
      | .ok state => state.isSuccessful
      | .error _ => false)

/-- The pending nodes whose dependencies are all successful, in identifier order. -/
def readyNodes (g : BuildGraph T) : List NodeId :=
  (g.nodes.filter fun node =>
    node.state = .pending && (match g.isReady node.id with | .ok b => b | .error _ => false)).map
    (·.id)

/-- Cancel the listed dependents that are still active and queue them. -/
def cancelDependents : List NodeId → List NodeId → BuildGraph T →
    Except GraphError (List NodeId) × BuildGraph T
  | [], queue, g => (.ok queue, g)
  | dependent :: rest, queue, g =>
    match g.state dependent with
    | .error e => (.error e, g)
    | .ok state =>
      if state.isTerminal then cancelDependents rest queue g
      else
        match g.setState dependent .cancelled with
        | (.error e, g) => (.error e, g)
        | (.ok (), g) => cancelDependents rest (queue ++ [dependent]) g

/-- The cancellation cascade: cancel the active dependents of every queued node. -/
def cascadeLoop : ℕ → List NodeId → BuildGraph T → Except GraphError Unit × BuildGraph T
  | 0, _, g => (.ok (), g)
  | _ + 1, [], g => (.ok (), g)
  | fuel + 1, current :: queue, g =>
    match g.dependentsOf current with
    | .error e => (.error e, g)
    | .ok dependents =>
      match cancelDependents dependents queue g with
      | (.error e, g) => (.error e, g)
      | (.ok queue, g) => cascadeLoop fuel queue g

/-- Mark a node as failed and cancel everything active downstream of it. -/
def markFailed (g : BuildGraph T) (id : NodeId) : Except GraphError Unit × BuildGraph T :=
  match g.setState id .failed with
  | (.error e, g) => (.error e, g)
  | (.ok (), g) => cascadeLoop (g.len + 1) [id] g

/-- Put every node back to pending. -/
def resetStates (g : BuildGraph T) : BuildGraph T :=
  { g with nodes := g.nodes.map fun node => { node with state := .pending } }

/-- Decrement the indegree of each listed dependent and queue those that reach zero. -/
def releaseDependents : List NodeId → List ℕ → List NodeId → List ℕ × List NodeId
  | [], indegree, ready => (indegree, ready)
  | dependent :: rest, indegree, ready =>
    let indegree := indegree.modify dependent (· - 1)
    if indegree[dependent]? = some 0 then releaseDependents rest indegree (ready ++ [dependent])
    else releaseDependents rest indegree ready

/-- The main loop of the topological sort. -/
def topologicalLoop (g : BuildGraph T) : ℕ → List ℕ → List NodeId → List NodeId → List NodeId
  | 0, _, _, order => order
  | _ + 1, _, [], order => order
  | fuel + 1, indegree, id :: ready, order =>
    let (indegree, ready) := releaseDependents (g.dependentList id) indegree ready
    topologicalLoop g fuel indegree ready (order ++ [id])

/-- The nodes in dependency order, leaving out whatever lies on or behind a cycle. -/
def topologicalOrder (g : BuildGraph T) : List NodeId :=
  let indegree := g.deps.map List.length
  let ready := (g.deps.zipIdx.filter fun (deps, _) => deps.isEmpty).map Prod.snd
  topologicalLoop g (g.len + 1) indegree ready []

/-- The first structural error among the edges of one node. -/
def validateNode (g : BuildGraph T) (id : NodeId) (deps dependents : List NodeId) :
    Except GraphError Unit :=
  match deps.find? fun dep => decide (g.nodes.length ≤ dep) || dep == id with
  | some dep => .error (if g.nodes.length ≤ dep then .missingNode dep else .selfDependency id)
  | none =>
    match dependents.find? fun dependent => decide (g.nodes.length ≤ dependent) with
    | some dependent => .error (.missingNode dependent)
    | none => .ok ()

/-- Validate the edge lists of the nodes in order. -/
def validateNodes (g : BuildGraph T) : List ((List NodeId × List NodeId) × ℕ) →
    Except GraphError Unit
  | [] => .ok ()
  | ((deps, dependents), index) :: rest =>
    match g.validateNode index deps dependents with
    | .error e => .error e
    | .ok () => validateNodes g rest

/-- Check ranges, self edges and, through the topological sort, cycles. -/
def validate (g : BuildGraph T) : Except GraphError Unit :=
  match g.validateNodes (g.deps.zip g.dependents).zipIdx with
  | .error e => .error e
  | .ok () =>
    if g.topologicalOrder.length ≠ g.nodes.length then .error (.cycle 0 0) else .ok ()

end BuildGraph

/-- A task generated while its parent runs, with the extra dependencies it names. -/
structure DynamicTaskSpec (T : Type*) where
  payload : T
  dependencies : List NodeId

namespace BuildGraph

/-- Add the listed dependencies of a node, stopping at the first rejected one. -/
def addDependencies (child : NodeId) : List NodeId → BuildGraph T → Except GraphError Unit × BuildGraph T
  | [], g => (.ok (), g)
  | dep :: rest, g =>
    match g.addDependency dep child with
    | (.error e, g) => (.error e, g)
    | (.ok (), g) => addDependencies child rest g

/-- Add generated tasks below a parent, stopping at the first rejected edge. -/
def expandNode (parent : NodeId) : List (DynamicTaskSpec T) → List NodeId → BuildGraph T →
    Except GraphError (List NodeId) × BuildGraph T
  | [], createdIds, g => (.ok createdIds, g)
  | task :: rest, createdIds, g =>
    let (childId, g) := g.addNode task.payload
    match g.addDependency parent childId with
    | (.error e, g) => (.error e, g)
    | (.ok (), g) =>
      match addDependencies childId task.dependencies g with
      | (.error e, g) => (.error e, g)
      | (.ok (), g) => expandNode parent rest (createdIds ++ [childId]) g

end BuildGraph

end Forge.Graph
