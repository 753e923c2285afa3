import Forge.Executor.Task
import Forge.Fingerprint.Combine
import Forge.Graph.Levels
import Forge.Project.Owners

/-!
# The tasks of the Rust backend

Every level of the package graph becomes one task, which runs cargo for the packages of the
level. The fingerprint of a package is made of its own inputs, the files in its directory,
the lock file, the toolchain and the mode, and of the fingerprints of its dependencies in
the graph that was passed. The fingerprint of a task is made of those of its packages. The
hash is a parameter.
-/

namespace Forge.Backend.Rust

open Forge.Common Forge.Graph Forge.Project Forge.Fingerprint Forge.Executor

/-- What cargo is asked to do. -/
inductive BuildMode where
  | build
  | check
  | test
  | clippy
  | doc
  | bench
deriving DecidableEq, Repr

/-- The name of a mode. -/
def BuildMode.asStr : BuildMode → String
  | .build => "build"
  | .check => "check"
  | .test => "test"
  | .clippy => "clippy"
  | .doc => "doc"
  | .bench => "bench"

/-- The subcommand of cargo for a mode. -/
def BuildMode.cargoSubcommand : BuildMode → String
  | .build => "build"
  | .check => "check"
  | .test => "test"
  | .clippy => "clippy"
  | .doc => "doc"
  | .bench => "bench"

/-- Why there are no tasks. -/
inductive BackendError where
  | graph (e : GraphError)
  | message (text : String)
deriving DecidableEq, Repr

/-- How making the tasks fails: with an error, or with a panic. -/
inductive Failure where
  | err (e : BackendError)
  | panic (message : String)
deriving DecidableEq, Repr

/-- The backend with what it found out about its tools. -/
structure RustBackend where
  toolchain : String
  cargo : String
deriving DecidableEq, Repr

/-- What is hashed for the inputs of a package. -/
def packageInputText (fs : Tree) (packageDir : Path) (lockFile : Option Bytes) (toolchain : String)
    (mode : BuildMode) : Bytes :=
  hashDirectoryFiltered packageFilter packageDir (fs.descend packageDir) ++
    (match lockFile with
      | none => []
      | some lock => utf8Bytes "lock:" ++ lock) ++
    utf8Bytes ("profile=debug;toolchain=" ++ toolchain ++ ";mode=" ++ mode.asStr)

/-- The fingerprint of the inputs of a package. -/
def packageInputFingerprint (hash : Bytes → String) (fs : Tree) (packageDir : Path) (lockFile : Option Bytes)
    (toolchain : String) (mode : BuildMode) : String :=
  hash (packageInputText fs packageDir lockFile toolchain mode)

/-- A project with the package graph that is built, and how it is built. -/
structure Build where
  backend : RustBackend
  project : Metadata
  packageGraph : BuildGraph PackageId
  mode : BuildMode
  caching : Bool

namespace Build

variable (hash : Bytes → String) (fs : Tree) (b : Build)

/-- The lock file of the workspace. -/
def lockFile : Option Bytes :=
  isFile fs (osPath (b.project.workspaceRoot ++ ["Cargo.lock"]))

/-- The fingerprint of the inputs in a directory. -/
def ownFingerprint (packageDir : PathBuf) : String :=
  packageInputFingerprint hash fs (osPath packageDir) (b.lockFile fs) b.backend.toolchain b.mode

/-- The directory of a package. -/
def packageDir (id : PackageId) : Except Failure PathBuf :=
  match b.project.package id with
  | none => .error (.err (.message ("package `" ++ id ++ "` was not found in cargo metadata")))
  | some package =>
    match parent package.manifestPath with
    | none => .error (.err (.message ("package `" ++ id ++ "` has no manifest directory")))
    | some dir => .ok dir

/-- The fingerprints that were made, by node. -/
abbrev Fingerprints := List (NodeId × String)

/-- Make the fingerprint of a node, after those of its dependencies. -/
def fingerprintNode (fingerprints : Fingerprints) (id : NodeId) : Except Failure Fingerprints :=
  match b.packageGraph.node id with
  | none => .error (.panic "levels contain existing nodes")
  | some node =>
    match b.packageDir node.payload with
    | .error e => .error e
    | .ok dir =>
      match b.packageGraph.depsOf id with
      | .error e => .error (.err (.graph e))
      | .ok deps =>
        let own := b.ownFingerprint hash fs dir
        let depFingerprints := deps.filterMap fun dep => fingerprints.lookup dep
        .ok ((id, combineFingerprints hash own depFingerprints) :: fingerprints)

/-- Make the fingerprints of nodes in order. -/
def fingerprintNodes : List NodeId → Fingerprints → Except Failure Fingerprints
  | [], fingerprints => .ok fingerprints
  | id :: ids, fingerprints =>
    match b.fingerprintNode hash fs fingerprints id with
    | .error e => .error e
    | .ok fingerprints => fingerprintNodes ids fingerprints

/-- Make the fingerprints of all packages, level by level. -/
def fingerprints : Except Failure Fingerprints :=
  b.fingerprintNodes hash fs b.packageGraph.levels.flatten []

/-- The name of the package of a node. The fingerprints are made before any name is read, so that there
is a package. -/
def packageName (id : NodeId) : String :=
  match b.packageGraph.node id with
  | none => ""
  | some node =>
    match b.project.package node.payload with
    | none => ""
    | some package => package.name

/-- The nodes of a level by the names of their packages. -/
def sortedMembers (level : List NodeId) : List NodeId :=
  level.insertionSort fun x y => NameLe (utf8Bytes (b.packageName x)) (utf8Bytes (b.packageName y))

/-- The names of the packages of a level. -/
def names (level : List NodeId) : List String :=
  (b.sortedMembers level).map b.packageName

/-- The programs that a build of packages makes. -/
def binOutputs (members : List NodeId) : List String :=
  members.flatMap fun id =>
    match (b.packageGraph.node id).bind fun node => b.project.package node.payload with
    | none => []
    | some package =>
      (package.targets.filter fun target => target.kind.any (· = "bin")).map fun target =>
        pathString (b.project.workspaceRoot ++ ["target", "debug", target.name])

/-- The key of the cache entry of a level. -/
def levelKey (level : List NodeId) : String :=
  formatCacheKey "v1" (computeNamespace hash (osPath b.project.workspaceRoot)) (b.mode.asStr ++ "/level")
    ("+".intercalate (b.names level))

/-- The fingerprint of a level. -/
def levelFingerprint (fingerprints : Fingerprints) (level : List NodeId) : String :=
  combineFingerprints hash "" ((b.sortedMembers level).filterMap fun id => fingerprints.lookup id)

/-- The task of a level. -/
def levelTask (fingerprints : Fingerprints) (level : List NodeId) : Task :=
  let names := b.names level
  let label := match names with
    | [name] => name
    | _ => ", ".intercalate names
  let args := b.mode.cargoSubcommand :: names.flatMap fun name => ["--package", name]
  let spec := { CommandSpec.new b.backend.cargo with args := args, cwd := some (pathString b.project.workspaceRoot) }
  { label := label
    description := spec.commandLine
    spec := spec
    cache :=
      if b.caching then some ⟨b.levelKey hash level, b.levelFingerprint hash fingerprints level⟩ else none
    artifacts := if b.mode = .build then b.binOutputs (b.sortedMembers level) else [] }

/-- Add the tasks of the levels, and note which task a package belongs to. -/
def addTasks (fingerprints : Fingerprints) : List (List NodeId) → List (NodeId × NodeId) → BuildGraph Task →
    List (NodeId × NodeId) × BuildGraph Task
  | [], levelNode, taskGraph => (levelNode, taskGraph)
  | level :: levels, levelNode, taskGraph =>
    let (nodeId, taskGraph) := taskGraph.addNode (b.levelTask hash fingerprints level)
    addTasks fingerprints levels (level.map (·, nodeId) ++ levelNode) taskGraph

/-- The dependencies between tasks: what a package of a level depends on. -/
def taskDeps (levelNode : List (NodeId × NodeId)) (node : NodeId) : List NodeId → BuildGraph Task →
    Except Failure (BuildGraph Task)
  | [], taskGraph => .ok taskGraph
  | dep :: deps, taskGraph =>
    match levelNode.lookup dep with
    | none => .error (.panic "dependencies live in earlier levels")
    | some depNode =>
      if depNode = node then taskDeps levelNode node deps taskGraph
      else
        match taskGraph.addDependency depNode node with
        | (.error e, _) => .error (.err (.graph e))
        | (.ok (), taskGraph) => taskDeps levelNode node deps taskGraph

/-- Add the dependencies of the tasks of the levels. -/
def addTaskDeps (levelNode : List (NodeId × NodeId)) : List (List NodeId) → BuildGraph Task →
    Except Failure (BuildGraph Task)
  | [], taskGraph => .ok taskGraph
  | level :: levels, taskGraph =>
    match level.head?.bind fun id => levelNode.lookup id with
    | none => .error (.panic "every package maps to a level task")
    | some node =>
      match taskDeps levelNode node (level.flatMap b.packageGraph.depList) taskGraph with
      | .error e => .error e
      | .ok taskGraph => addTaskDeps levelNode levels taskGraph

/-- Make the tasks of a package graph. -/
def createTasks : Except Failure (BuildGraph Task) :=
  match b.fingerprints hash fs with
  | .error e => .error e
  | .ok fingerprints =>
    let levels := b.packageGraph.levels
    let (levelNode, taskGraph) := b.addTasks hash fingerprints levels [] BuildGraph.new
    b.addTaskDeps levelNode levels taskGraph

end Build

end Forge.Backend.Rust

/-!
## The fingerprints of the packages

The levels of the graph are a topological order, so that the fingerprints of all
dependencies of a package are there when its own one is made: every fingerprint is combined
from the inputs of the package and the fingerprints of all its dependencies in the graph.
-/

namespace Forge.Backend.Rust.Build

open Forge.Common Forge.Graph Forge.Graph.BuildGraph Forge.Project Forge.Fingerprint Forge.Executor

variable (hash : Bytes → String) (fs : Tree) (b : Build)

/-- The fingerprint of the inputs of a package, empty without its directory. -/
def own (id : PackageId) : String :=
  match b.packageDir id with
  | .error _ => ""
  | .ok dir => b.ownFingerprint hash fs dir

/-- The fingerprint of the inputs of the package of a node. -/
def ownOf (id : NodeId) : String :=
  match b.packageGraph.node id with
  | none => ""
  | some node => b.own hash fs node.payload

variable {hash fs b}

/-- What the fingerprint of a node is made of. -/
theorem fingerprintNode_eq {fingerprints fingerprints' : Fingerprints} {id : NodeId}
    (hok : b.fingerprintNode hash fs fingerprints id = .ok fingerprints') :
    fingerprints' = (id, combineFingerprints hash (b.ownOf hash fs id)
      ((b.packageGraph.depList id).filterMap fun dep => fingerprints.lookup dep)) :: fingerprints := by
  unfold fingerprintNode at hok
  split at hok
  · cases hok
  · rename_i node hnode
    split at hok
    · cases hok
    · rename_i dir hdir
      split at hok
      · cases hok
      · rename_i deps hdeps
        have hown : b.ownOf hash fs id = b.ownFingerprint hash fs dir := by
          simp only [ownOf, hnode, own, hdir]
        have hlist : b.packageGraph.depList id = deps := by
          unfold depsOf at hdeps
          split at hdeps
          · rename_i found hfound
            rw [depList, hfound, Option.getD_some]
            exact Except.ok.inj hdeps
          · cases hdeps
        rw [hown, hlist]
        exact (Except.ok.inj hok).symm

/-- The fingerprints of nodes whose dependencies have fingerprints. -/
structure Fingerprinted (hash : Bytes → String) (fs : Tree) (b : Build) (done : List NodeId)
    (fingerprints : Fingerprints) : Prop where
  found : ∀ id, (fingerprints.lookup id).isSome ↔ id ∈ done
  deps : ∀ id ∈ done, ∀ dep ∈ b.packageGraph.depList id, dep ∈ done
  made : ∀ id ∈ done, fingerprints.lookup id = some (combineFingerprints hash (b.ownOf hash fs id)
    ((b.packageGraph.depList id).filterMap fun dep => fingerprints.lookup dep))

/-- Making the fingerprint of a new node keeps those that were made. -/
theorem Fingerprinted.add {done : List NodeId} {fingerprints fingerprints' : Fingerprints}
    (h : Fingerprinted hash fs b done fingerprints) {id : NodeId} (hnew : id ∉ done)
    (hdeps : ∀ dep ∈ b.packageGraph.depList id, dep ∈ done)
    (hok : b.fingerprintNode hash fs fingerprints id = .ok fingerprints') :
    Fingerprinted hash fs b (done ++ [id]) fingerprints' := by
  have hself : fingerprints'.lookup id = some (combineFingerprints hash (b.ownOf hash fs id)
      ((b.packageGraph.depList id).filterMap fun dep => fingerprints.lookup dep)) := by
    rw [fingerprintNode_eq hok, List.lookup_cons_self]
  have hother : ∀ x, x ≠ id → fingerprints'.lookup x = fingerprints.lookup x := by
    intro x hx
    rw [fingerprintNode_eq hok, List.lookup_cons, beq_false_of_ne hx]
  have hsame : ∀ {x}, (∀ dep ∈ b.packageGraph.depList x, dep ∈ done) →
      ((b.packageGraph.depList x).filterMap fun dep => fingerprints'.lookup dep) =
        (b.packageGraph.depList x).filterMap fun dep => fingerprints.lookup dep := by
    intro x hx
    exact List.filterMap_congr fun dep hdep => hother dep fun heq => hnew (heq ▸ hx dep hdep)
  constructor
  · intro x
    rw [List.mem_append, List.mem_singleton]
    by_cases hx : x = id
    · rw [hx, hself]
      exact iff_of_true rfl (.inr rfl)
    · rw [hother x hx, h.found, or_iff_left hx]
  · intro x hx dep hdep
    rcases List.mem_append.mp hx with hx | hx
    · exact List.mem_append_left _ (h.deps x hx dep hdep)
    · rw [List.mem_singleton.mp hx] at hdep
      exact List.mem_append_left _ (hdeps dep hdep)
  · intro x hx
    rcases List.mem_append.mp hx with hx | hx
    · rw [hother x fun heq => hnew (heq ▸ hx), hsame (h.deps x hx)]
      exact h.made x hx
    · rw [List.mem_singleton.mp hx, hself, hsame hdeps]

/-- The fingerprints of an order in which the dependencies come first. -/
theorem fingerprintNodes_made {order done : List NodeId} {fingerprints fingerprints' : Fingerprints}
    (hwf : b.packageGraph.WellFormed) (h : Fingerprinted hash fs b done fingerprints)
    (horder : b.packageGraph.IsTopological (done ++ order))
    (hok : b.fingerprintNodes hash fs order fingerprints = .ok fingerprints') :
    Fingerprinted hash fs b (done ++ order) fingerprints' := by
  induction order generalizing done fingerprints with
  | nil =>
    rw [List.append_nil]
    exact Except.ok.inj hok ▸ h
  | cons id order ih =>
    rw [fingerprintNodes] at hok
    split at hok
    · exact absurd hok nofun
    · rename_i next hmade
      obtain ⟨-, hnew, hbefore, hnext⟩ := horder.next hwf
      rw [List.append_cons]
      exact ih (h.add hnew hbefore hmade) hnext hok

/-- All packages have fingerprints, made of their inputs and the fingerprints of their dependencies. -/
theorem fingerprints_made (hwf : b.packageGraph.WellFormed) {fingerprints : Fingerprints}
    (hok : b.fingerprints hash fs = .ok fingerprints) :
    Fingerprinted hash fs b b.packageGraph.levels.flatten fingerprints := by
  have hnone : Fingerprinted hash fs b [] [] :=
    { found := fun id => by simp
      deps := fun id hid => absurd hid List.not_mem_nil
      made := fun id hid => absurd hid List.not_mem_nil }
  exact fingerprintNodes_made hwf hnone hwf.levels_isTopological hok

/-- The fingerprint of a node. -/
def fingerprintOf (fingerprints : Fingerprints) (id : NodeId) : String :=
  (fingerprints.lookup id).getD ""

/-- The fingerprints of nodes that have one. -/
theorem filterMap_lookup {fingerprints : Fingerprints} {ids : List NodeId}
    (hfound : ∀ id ∈ ids, (fingerprints.lookup id).isSome) :
    (ids.filterMap fun id => fingerprints.lookup id) = ids.map (fingerprintOf fingerprints) := by
  rw [← List.filterMap_eq_map]
  refine List.filterMap_congr fun id hid => ?_
  obtain ⟨fingerprint, hfingerprint⟩ := Option.isSome_iff_exists.mp (hfound id hid)
  simp [fingerprintOf, hfingerprint]

/-- A fingerprint is combined from the inputs of its package and the fingerprints of its dependencies. -/
theorem Fingerprinted.fingerprintOf_eq {done : List NodeId} {fingerprints : Fingerprints}
    (h : Fingerprinted hash fs b done fingerprints) {id : NodeId} (hid : id ∈ done) :
    fingerprintOf fingerprints id = combineFingerprints hash (b.ownOf hash fs id)
      ((b.packageGraph.depList id).map (fingerprintOf fingerprints)) := by
  rw [fingerprintOf, h.made id hid, Option.getD_some,
    filterMap_lookup fun dep hdep => (h.found dep).mpr (h.deps id hid dep hdep)]

end Forge.Backend.Rust.Build
