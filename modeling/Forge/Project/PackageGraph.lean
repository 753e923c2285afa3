import Forge.Graph.WellFormed
import Mathlib.Data.List.Basic

/-!
# The package graph of a workspace

The members of the workspace become the nodes of a build graph, and their dependencies are
inserted one after another, in the order of the metadata. An insertion that would close a
cycle is refused and left out. The code expects that only dependencies for tests are
refused; the refused insertions are returned next to the graph to say when that holds.
-/

namespace Forge.Project

/-!
## The metadata of a workspace

What `cargo metadata` reports, as far as the project model reads it: the packages with
their manifests and targets, the members of the workspace, and the resolved dependencies.
Paths are absolute and given by their components.
-/

/-- The identifier of a package. -/
abbrev PackageId := String

/-- The components of a path. -/
abbrev PathBuf := List String

/-- Why a package is needed. -/
inductive DependencyKind where
  | normal
  | development
  | build
  | unknown
deriving DecidableEq, Repr

/-- A resolved dependency with the kinds in which it is declared. -/
structure NodeDep where
  pkg : PackageId
  depKinds : List DependencyKind
deriving DecidableEq, Repr

/-- Whether a dependency is only declared for tests. -/
def NodeDep.isDevOnly (dep : NodeDep) : Bool :=
  dep.depKinds.all (· = .development)

/-- The resolved dependencies of a package. -/
structure ResolveNode where
  id : PackageId
  deps : List NodeDep
deriving DecidableEq, Repr

/-- The resolved dependencies of the packages. -/
structure Resolve where
  nodes : List ResolveNode
deriving DecidableEq, Repr

/-- A target of a package. -/
structure Target where
  name : String
  kind : List String
  srcPath : PathBuf
deriving DecidableEq, Repr

/-- A package. -/
structure Package where
  id : PackageId
  name : String
  manifestPath : PathBuf
  targets : List Target
deriving DecidableEq, Repr

/-- The metadata of a workspace. -/
structure Metadata where
  packages : List Package
  workspaceMembers : List PackageId
  resolve : Option Resolve
  workspaceRoot : PathBuf
deriving DecidableEq, Repr

namespace Metadata

/-- The package of an identifier. -/
def package (m : Metadata) (id : PackageId) : Option Package :=
  m.packages.find? fun package => package.id = id

/-- The resolved dependencies, none without a resolution. -/
def resolvedNodes (m : Metadata) : List ResolveNode :=
  match m.resolve with
  | none => []
  | some resolve => resolve.nodes

end Metadata

open Relation Forge.Common Forge.Graph BuildGraph

/-- A call of `add_dependency`, with whether the dependency is only declared for tests. -/
structure Insertion where
  dependency : NodeId
  dependent : NodeId
  isDevOnly : Bool
deriving DecidableEq, Repr

/-- The nodes of the members, the one added last for a member that is listed twice. -/
abbrev MemberIds := List (PackageId × NodeId)

/-- Add a node for every member. -/
def addMembers : List PackageId → MemberIds → BuildGraph PackageId → MemberIds × BuildGraph PackageId
  | [], ids, graph => (ids, graph)
  | id :: members, ids, graph =>
    let (node, graph) := graph.addNode id
    addMembers members ((id, node) :: ids) graph

/-- The insertion for one dependency of a member, if there is one. -/
def insertion? (ids : MemberIds) (includeDev : Bool) (dependent : NodeId) (dep : NodeDep) : Option Insertion :=
  match ids.lookup dep.pkg with
  | none => none
  | some dependency =>
    if dependency = dependent then none
    else if dep.isDevOnly && !includeDev then none
    else some ⟨dependency, dependent, dep.isDevOnly⟩

/-- The insertions for the dependencies of a package. -/
def nodeInsertions (ids : MemberIds) (includeDev : Bool) (node : ResolveNode) : List Insertion :=
  match ids.lookup node.id with
  | none => []
  | some dependent => node.deps.filterMap (insertion? ids includeDev dependent)

/-- Insert dependencies one after another, and collect what is refused. -/
def insertAll : List Insertion → BuildGraph PackageId → List Insertion × BuildGraph PackageId
  | [], graph => ([], graph)
  | i :: insertions, graph =>
    match graph.addDependency i.dependency i.dependent with
    | (.ok (), graph) => insertAll insertions graph
    | (.error _, graph) =>
      let (refused, graph) := insertAll insertions graph
      (i :: refused, graph)

namespace Metadata

/-- The nodes of the members, and the graph without dependencies. -/
def members (m : Metadata) : MemberIds × BuildGraph PackageId :=
  addMembers m.workspaceMembers [] BuildGraph.new

/-- The insertions in the order in which they are made. -/
def insertions (m : Metadata) (includeDev : Bool) : List Insertion :=
  m.resolvedNodes.flatMap (nodeInsertions m.members.1 includeDev)

/-- The package graph, with the insertions that were refused. -/
def buildGraphWith (m : Metadata) (includeDev : Bool) : List Insertion × BuildGraph PackageId :=
  insertAll (m.insertions includeDev) m.members.2

/-- The graph of a build. -/
def buildGraph (m : Metadata) : BuildGraph PackageId :=
  (m.buildGraphWith false).2

/-- The graph of a test run. -/
def buildTestGraph (m : Metadata) : BuildGraph PackageId :=
  (m.buildGraphWith true).2

end Metadata

/-! ## Members -/

/-- The members have nodes, and the nodes carry the members. -/
structure Numbered (members : List PackageId) (ids : MemberIds) (graph : BuildGraph PackageId) : Prop where
  wellFormed : graph.WellFormed
  edgeless : ∀ a b : ℕ, ¬ graph.Edge a b
  payload : ∀ id n, ids.lookup id = some n → (graph.node n).map (·.payload) = some id
  found : ∀ id ∈ members, (ids.lookup id).isSome
  member : ∀ id n, ids.lookup id = some n → id ∈ members

/-- Adding a member numbers it. -/
theorem Numbered.add {members : List PackageId} {ids : MemberIds} {graph : BuildGraph PackageId}
    (h : Numbered members ids graph) (id : PackageId) :
    Numbered (members ++ [id]) ((id, (graph.addNode id).1) :: ids) (graph.addNode id).2 where
  wellFormed := h.wellFormed.addNode id
  edgeless := by rw [edge_addNode]; exact h.edgeless
  payload := by
    intro id' n hlookup
    rw [List.lookup_cons] at hlookup
    split at hlookup
    · rename_i hsame
      obtain rfl := Option.some.inj hlookup
      simp [BuildGraph.node, addNode, eq_of_beq hsame]
    · have hold := h.payload id' n hlookup
      have hlt : n < graph.nodes.length := by
        by_contra hge
        simp [BuildGraph.node, List.getElem?_eq_none (Nat.le_of_not_lt hge)] at hold
      simpa [BuildGraph.node, addNode, List.getElem?_append_left hlt] using hold
  found := by
    intro id' hmem
    rw [List.lookup_cons]
    split
    · rfl
    · rename_i hother
      rcases List.mem_append.mp hmem with hmem | hmem
      · exact h.found id' hmem
      · exact absurd (List.mem_singleton.mp hmem) (by simpa using hother)
  member := by
    intro id' n hlookup
    rw [List.lookup_cons] at hlookup
    split at hlookup
    · rename_i hsame
      exact List.mem_append_right members (List.mem_singleton.mpr (eq_of_beq hsame))
    · exact List.mem_append_left [id] (h.member id' n hlookup)

/-- Adding the members numbers them. -/
theorem Numbered.addMembers {members : List PackageId} {ids : MemberIds} {graph : BuildGraph PackageId}
    (h : Numbered members ids graph) (more : List PackageId) :
    Numbered (members ++ more) (addMembers more ids graph).1 (addMembers more ids graph).2 := by
  induction more generalizing members ids graph with
  | nil => rw [List.append_nil]; exact h
  | cons id more ih =>
    have hnext := ih (h.add id)
    rw [List.append_assoc, List.singleton_append] at hnext
    exact hnext

/-- Without members there is nothing to number. -/
theorem Numbered.new : Numbered [] [] BuildGraph.new where
  wellFormed := .new
  edgeless := fun a b h => by simp [Edge, dependentList, BuildGraph.new] at h
  payload := fun id n h => absurd h (by simp)
  found := fun id h => absurd h List.not_mem_nil
  member := fun id n h => absurd h (by simp)

/-- The nodes that are added carry the members. -/
theorem addMembers_payloads (members : List PackageId) (ids : MemberIds) (graph : BuildGraph PackageId) :
    (addMembers members ids graph).2.nodes.map (·.payload) = graph.nodes.map (·.payload) ++ members := by
  induction members generalizing ids graph with
  | nil => exact (List.append_nil _).symm
  | cons id members ih =>
    rw [addMembers, ih]
    simp [addNode]

/-- The members of a workspace are numbered. -/
theorem Metadata.numbered (m : Metadata) : Numbered m.workspaceMembers m.members.1 m.members.2 :=
  Numbered.new.addMembers m.workspaceMembers

end Forge.Project
