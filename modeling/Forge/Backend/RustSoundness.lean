import Forge.Backend.RustTasks
import Forge.Common.Unfoldings
import Forge.Graph.Subgraph
import Forge.Project.BuildOrder

/-!
# What equal fingerprints of two runs tell

Two runs of a workspace get the package graph or a part of it that changes affect. Two of
their tasks have the same fingerprint exactly when their packages can be matched one to one
so that matched packages have the same inputs, and so have, further down, the dependencies
that they have in the graphs that were passed. Nothing is said about dependencies that were
left out of these graphs.
-/

namespace Forge.Backend.Rust

open Relation Forge.Common Forge.Graph Forge.Graph.BuildGraph Forge.Project Forge.Fingerprint Forge.Executor

/-! ## The tasks -/

namespace Build

variable {hash : Bytes → String} {fs : Tree} {b : Build}

/-- The nodes that are added are the tasks of the levels. -/
theorem addTasks_payloads (fingerprints : Fingerprints) (levels : List (List NodeId))
    (levelNode : List (NodeId × NodeId)) (taskGraph : BuildGraph Task) :
    (b.addTasks hash fingerprints levels levelNode taskGraph).2.nodes.map (·.payload) =
      taskGraph.nodes.map (·.payload) ++ levels.map (b.levelTask hash fingerprints) := by
  induction levels generalizing levelNode taskGraph with
  | nil => exact (List.append_nil _).symm
  | cons level levels ih =>
    rw [addTasks, ih]
    simp [addNode]

/-- The dependencies of a level add no tasks. -/
theorem taskDeps_nodes {levelNode : List (NodeId × NodeId)} {node : NodeId} {deps : List NodeId}
    {taskGraph taskGraph' : BuildGraph Task} (hok : taskDeps levelNode node deps taskGraph = .ok taskGraph') :
    taskGraph'.nodes = taskGraph.nodes := by
  induction deps generalizing taskGraph with
  | nil => exact Except.ok.inj hok ▸ rfl
  | cons dep deps ih =>
    rw [taskDeps] at hok
    split at hok
    · exact absurd hok nofun
    · rename_i depNode _
      split at hok
      · exact ih hok
      · have hnodes := nodes_addDependency taskGraph depNode node
        split at hok
        · exact absurd hok nofun
        · rename_i hadded
          rw [hadded] at hnodes
          exact (ih hok).trans hnodes

/-- The dependencies of all levels add no tasks. -/
theorem addTaskDeps_nodes {levelNode : List (NodeId × NodeId)} {levels : List (List NodeId)}
    {taskGraph taskGraph' : BuildGraph Task} (hok : b.addTaskDeps levelNode levels taskGraph = .ok taskGraph') :
    taskGraph'.nodes = taskGraph.nodes := by
  induction levels generalizing taskGraph with
  | nil => exact Except.ok.inj hok ▸ rfl
  | cons level levels ih =>
    rw [addTaskDeps] at hok
    split at hok
    · exact absurd hok nofun
    · split at hok
      · exact absurd hok nofun
      · rename_i hdeps
        exact (ih hok).trans (taskDeps_nodes hdeps)

/-- The tasks are those of the levels. -/
theorem createTasks_payloads {taskGraph : BuildGraph Task} (hok : b.createTasks hash fs = .ok taskGraph) :
    ∃ fingerprints, b.fingerprints hash fs = .ok fingerprints ∧
      taskGraph.nodes.map (·.payload) = b.packageGraph.levels.map (b.levelTask hash fingerprints) := by
  unfold createTasks at hok
  split at hok
  · exact absurd hok nofun
  · rename_i fingerprints hfingerprints
    refine ⟨fingerprints, hfingerprints, ?_⟩
    rw [addTaskDeps_nodes hok, addTasks_payloads]
    rfl

/-- The members of a level in the order of their names. -/
theorem sortedMembers_perm (level : List NodeId) : (b.sortedMembers level).Perm level :=
  List.perm_insertionSort _ level

end Build

/-! ## Runs -/

/-- What is passed for a package graph: all of it, or the part that changes affect. -/
def Passed (graph passed : BuildGraph PackageId) : Prop :=
  passed = graph ∨ ∃ changed, graph.subgraph (graph.affectedNodes changed) = some passed

/-- What is passed satisfies the invariant of the graph. -/
theorem Passed.wellFormed {graph passed : BuildGraph PackageId} (h : Passed graph passed) (hwf : graph.WellFormed) :
    passed.WellFormed := by
  rcases h with rfl | ⟨changed, hkept⟩
  · exact hwf
  · exact subgraph_wellFormed hkept

/-- The package graph of a workspace satisfies the invariant of the graph. -/
theorem packageGraph_wellFormed (m : Metadata) (includeDev : Bool) : (m.buildGraphWith includeDev).2.WellFormed :=
  insertAll_wellFormed _ m.numbered.wellFormed

/-- A run with caching on the package graph of a workspace or on the part of it that changes affect, and
the tasks that it makes. -/
structure Run (hash : Bytes → String) (m : Metadata) (includeDev : Bool) where
  build : Build
  fs : Tree
  tasks : BuildGraph Task
  project : build.project = m
  caching : build.caching = true
  passed : Passed (m.buildGraphWith includeDev).2 build.packageGraph
  made : build.createTasks hash fs = .ok tasks

variable {hash : Bytes → String} {m : Metadata} {includeDev : Bool}

namespace Run

/-- The levels of the graph that was passed. -/
def levels (r : Run hash m includeDev) : List (List NodeId) := r.build.packageGraph.levels

/-- The task of a level. -/
def task (r : Run hash m includeDev) (k : ℕ) : Option Task := (r.tasks.node k).map (·.payload)

/-- The package of a node. -/
def package (r : Run hash m includeDev) (id : NodeId) : Option PackageId :=
  (r.build.packageGraph.node id).map (·.payload)

/-- The fingerprint of the inputs of a package. -/
def own (r : Run hash m includeDev) (id : PackageId) : String := r.build.own hash r.fs id

end Run

/-- A package needs another one in the package graph of the workspace. -/
def Needs (m : Metadata) (includeDev : Bool) (package needed : PackageId) : Prop :=
  ∃ a b : ℕ, ((m.buildGraphWith includeDev).2.node a).map (·.payload) = some needed ∧
    ((m.buildGraphWith includeDev).2.node b).map (·.payload) = some package ∧
    ReflTransGen (m.buildGraphWith includeDev).2.Edge a b

/-- A package and everything it needs in the workspace have the same inputs in two runs. -/
def Agree (r r' : Run hash m includeDev) (package : PackageId) : Prop :=
  r.own package = r'.own package ∧ ∀ needed, Needs m includeDev package needed → r.own needed = r'.own needed

/-- The packages of two levels and everything they need in the workspace have the same inputs in two
runs. -/
def LevelsAgree (r r' : Run hash m includeDev) (level level' : List NodeId) : Prop :=
  (∀ id ∈ level, ∀ package, r.package id = some package → Agree r r' package) ∧
    ∀ id ∈ level', ∀ package, r'.package id = some package → Agree r r' package

/-- Whenever two tasks of two runs have the same key and the same fingerprint, their packages and
everything these need in the workspace have the same inputs in both runs. -/
def Sound (r r' : Run hash m includeDev) : Prop :=
  ∀ k k' level level' task task', r.levels[k]? = some level → r'.levels[k']? = some level' →
    r.task k = some task → r'.task k' = some task' →
    ∀ entry entry', task.cache = some entry → task'.cache = some entry' →
      entry.key = entry'.key → entry.fingerprint = entry'.fingerprint → LevelsAgree r r' level level'

/-- Two levels look alike: their packages can be matched one to one so that matched packages have the
same inputs, and so have, further down, their dependencies in the graphs that were passed. -/
def LevelsAlike (r r' : Run hash m includeDev) (level level' : List NodeId) : Prop :=
  ∃ matched : List NodeId, matched.Perm level' ∧
    List.Forall₂ (Alike (r.build.ownOf hash r.fs) r.build.packageGraph.depList (r'.build.ownOf hash r'.fs)
      r'.build.packageGraph.depList) level matched

/-- Whenever two levels with the same key look alike, their packages and everything these need in the
workspace have the same inputs in both runs. -/
def AlikeAgree (r r' : Run hash m includeDev) : Prop :=
  ∀ level ∈ r.levels, ∀ level' ∈ r'.levels, r.build.levelKey hash level = r'.build.levelKey hash level' →
    LevelsAlike r r' level level' → LevelsAgree r r' level level'

namespace Run

/-- The graph that was passed satisfies the invariant of the graph. -/
theorem wellFormed (r : Run hash m includeDev) : r.build.packageGraph.WellFormed :=
  r.passed.wellFormed (packageGraph_wellFormed m includeDev)

/-- The tasks of a run are those of its levels, with the fingerprints of the packages. -/
theorem exists_fingerprints (r : Run hash m includeDev) :
    ∃ fingerprints, Build.Fingerprinted hash r.fs r.build r.levels.flatten fingerprints ∧
      ∀ k level, r.levels[k]? = some level → r.task k = some (r.build.levelTask hash fingerprints level) := by
  obtain ⟨fingerprints, hok, hpayloads⟩ := Build.createTasks_payloads r.made
  refine ⟨fingerprints, Build.fingerprints_made r.wellFormed hok, fun k level hlevel => ?_⟩
  rw [task, BuildGraph.node, ← List.getElem?_map, hpayloads, List.getElem?_map]
  change (r.levels[k]?).map _ = _
  rw [hlevel]
  rfl

/-- The task of a level has its key and its fingerprint. -/
theorem cache_levelTask (r : Run hash m includeDev) (fingerprints : Build.Fingerprints) (level : List NodeId) :
    (r.build.levelTask hash fingerprints level).cache =
      some ⟨r.build.levelKey hash level, r.build.levelFingerprint hash fingerprints level⟩ := by
  simp [Build.levelTask, r.caching]

end Run

/-- Two levels have the same fingerprint exactly when they look alike. -/
theorem levelFingerprint_eq_iff (hhash : Function.Injective hash) {r r' : Run hash m includeDev}
    {fingerprints fingerprints' : Build.Fingerprints}
    (h : Build.Fingerprinted hash r.fs r.build r.levels.flatten fingerprints)
    (h' : Build.Fingerprinted hash r'.fs r'.build r'.levels.flatten fingerprints') {level level' : List NodeId}
    (hlevel : level ∈ r.levels) (hlevel' : level' ∈ r'.levels) :
    r.build.levelFingerprint hash fingerprints level = r'.build.levelFingerprint hash fingerprints' level' ↔
      LevelsAlike r r' level level' := by
  have hknown : ∀ id ∈ level, id ∈ r.levels.flatten := fun id hid => List.mem_flatten.mpr ⟨level, hlevel, hid⟩
  have hknown' : ∀ id ∈ level', id ∈ r'.levels.flatten := fun id hid => List.mem_flatten.mpr ⟨level', hlevel', hid⟩
  have hperm := r.build.sortedMembers_perm level
  have hperm' := r'.build.sortedMembers_perm level'
  have hfound : ∀ id ∈ r.build.sortedMembers level, (fingerprints.lookup id).isSome := fun id hid =>
    (h.found id).mpr (hknown id (hperm.mem_iff.mp hid))
  have hfound' : ∀ id ∈ r'.build.sortedMembers level', (fingerprints'.lookup id).isSome := fun id hid =>
    (h'.found id).mpr (hknown' id (hperm'.mem_iff.mp hid))
  have hwf : WellFounded fun d x : ℕ => d ∈ r.build.packageGraph.depList x :=
    Subrelation.wf (fun hd => r.wellFormed.mem_depList_iff.mp hd) r.wellFormed.edge_wf
  unfold Build.levelFingerprint
  rw [combineFingerprints_eq_iff hhash, and_iff_right rfl, Build.filterMap_lookup hfound,
    Build.filterMap_lookup hfound', (hperm.map _).congr_left, (hperm'.map _).congr_right]
  exact map_perm_map_iff_alike (fun _ _ _ _ => combineFingerprints_eq_iff hhash) hwf
    (fun _ hid => h.fingerprintOf_eq hid) (fun _ hid => h'.fingerprintOf_eq hid) h.deps h'.deps hknown hknown'

/-- With a hash without collisions the fingerprints of two runs are sound exactly when levels with the
same key that look alike agree in everything that their packages need. -/
theorem sound_iff (hhash : Function.Injective hash) (r r' : Run hash m includeDev) :
    Sound r r' ↔ AlikeAgree r r' := by
  obtain ⟨fingerprints, hmade, htask⟩ := r.exists_fingerprints
  obtain ⟨fingerprints', hmade', htask'⟩ := r'.exists_fingerprints
  constructor
  · intro hsound level hlevel level' hlevel' hkey halike
    obtain ⟨k, hk⟩ := List.mem_iff_getElem?.mp hlevel
    obtain ⟨k', hk'⟩ := List.mem_iff_getElem?.mp hlevel'
    have hsame := (levelFingerprint_eq_iff hhash hmade hmade' hlevel hlevel').mpr halike
    exact hsound k k' level level' _ _ hk hk' (htask k level hk) (htask' k' level' hk') _ _
      (r.cache_levelTask _ _) (r'.cache_levelTask _ _) hkey hsame
  · intro hagree k k' level level' task task' hk hk' hk₁ hk₁' entry entry' hentry hentry' hkey hsame
    rw [htask k level hk] at hk₁
    rw [htask' k' level' hk'] at hk₁'
    obtain rfl := Option.some.inj hk₁
    obtain rfl := Option.some.inj hk₁'
    rw [r.cache_levelTask] at hentry
    rw [r'.cache_levelTask] at hentry'
    obtain rfl := Option.some.inj hentry
    obtain rfl := Option.some.inj hentry'
    have hlevel := List.mem_of_getElem? hk
    have hlevel' := List.mem_of_getElem? hk'
    exact hagree level hlevel level' hlevel' hkey
      ((levelFingerprint_eq_iff hhash hmade hmade' hlevel hlevel').mp hsame)

/-! ## A sample -/

/-- A workspace with a library and a program that uses it. -/
def libAndApp : Metadata where
  packages :=
    [⟨"path+file:///ws/lib#0.1.0", "lib", ["ws", "lib", "Cargo.toml"], []⟩,
      ⟨"path+file:///ws/app#0.1.0", "app", ["ws", "app", "Cargo.toml"], []⟩]
  workspaceMembers := ["path+file:///ws/lib#0.1.0", "path+file:///ws/app#0.1.0"]
  resolve := some ⟨[⟨"path+file:///ws/lib#0.1.0", []⟩,
    ⟨"path+file:///ws/app#0.1.0", [⟨"path+file:///ws/lib#0.1.0", [.normal]⟩]⟩]⟩
  workspaceRoot := ["ws"]

/-- The files of the workspace with a source of the library. -/
def libAndAppFiles (source : String) : Tree :=
  .dir (.cons (utf8Bytes "ws")
    (.dir (.cons (utf8Bytes "lib")
      (.dir (.cons (utf8Bytes "Cargo.toml") (.file (utf8Bytes "name = \"lib\""))
        (.cons (utf8Bytes "lib.rs") (.file (utf8Bytes source)) .nil)))
      (.cons (utf8Bytes "app") (.dir (.cons (utf8Bytes "Cargo.toml") (.file (utf8Bytes "name = \"app\"")) .nil)) .nil)))
    .nil)

/-- The part of the package graph that a change of the program affects. -/
def appOnly : BuildGraph PackageId :=
  ⟨[⟨0, "path+file:///ws/app#0.1.0", .pending⟩], [[]], [[]]⟩

/-- A build of that part. -/
def appBuild : Build := ⟨⟨"rustc 1.90.0", "cargo"⟩, libAndApp, appOnly, .build, true⟩

/-- The tasks of the build. -/
def appTasks (hash : Bytes → String) (fs : Tree) : BuildGraph Task :=
  ⟨[⟨0, appBuild.levelTask hash
    [(0, combineFingerprints hash (appBuild.own hash fs "path+file:///ws/app#0.1.0") [])] [0], .pending⟩], [[]], [[]]⟩

/-- A run of the build. -/
def appRun (hash : Bytes → String) (source : String) : Run hash libAndApp false where
  build := appBuild
  fs := libAndAppFiles source
  tasks := appTasks hash (libAndAppFiles source)
  project := rfl
  caching := rfl
  passed := .inr ⟨[1], by decide⟩
  made := rfl

/-- The values of BLAKE3 that the runs use. -/
def appHashes : JsonCodec.Table Bytes where
  known :=
    [(utf8Bytes "/ws", "3da3aac414e1e666067db9238d67ee514abc1b10d25ef183e925691b993d355a"),
      (utf8Bytes "Cargo.toml:name = \"app\"profile=debug;toolchain=rustc 1.90.0;mode=build",
        "a049a1ca6d3b8d87493c2518bf797681e5e5150e530dc93e57bffa5fcecf63df"),
      (utf8Bytes "prefix[64]:a049a1ca6d3b8d87493c2518bf797681e5e5150e530dc93e57bffa5fcecf63df",
        "6b9c0863925ce0c58563c56b7323a01d3ac7f3d4fee3d60365ef05cb4de03519"),
      (utf8Bytes "fp[64]:6b9c0863925ce0c58563c56b7323a01d3ac7f3d4fee3d60365ef05cb4de03519",
        "6102b26be8de9ae6c02778c6a291431d785ad2ade9990b9b87ac4c459fc13bce"),
      (utf8Bytes "Cargo.toml:name = \"lib\"lib.rs:v1profile=debug;toolchain=rustc 1.90.0;mode=build",
        "202a69a812e61b5e4bbad7f102e0f7705780eb88a4b3c8443884ba7a131d1922"),
      (utf8Bytes "Cargo.toml:name = \"lib\"lib.rs:v2profile=debug;toolchain=rustc 1.90.0;mode=build",
        "ef7b97c6bf3786f0132277d17b3c68cdf25f4f58cb85f41b228dc04cfa3bee7b")]
  texts_nodup := by decide +kernel
  nonzero := by decide +kernel

/-- The inputs of a package do not change between two runs with the same files. -/
theorem sound_appRun_same : Function.Injective (hashOf appHashes) ∧
    Sound (appRun (hashOf appHashes) "v1") (appRun (hashOf appHashes) "v1") := by
  have hagree : ∀ package, Agree (appRun (hashOf appHashes) "v1") (appRun (hashOf appHashes) "v1") package :=
    fun package => ⟨rfl, fun needed _ => rfl⟩
  exact ⟨hashOf_injective _, (sound_iff (hashOf_injective _) _ _).mpr fun level _ level' _ _ _ =>
    ⟨fun _ _ package _ => hagree package, fun _ _ package _ => hagree package⟩⟩

/-- When the program is built alone, its task has the same fingerprint before and after a change of the
library that it uses. -/
theorem not_sound_appRun_changed :
    ¬ Sound (appRun (hashOf appHashes) "v1") (appRun (hashOf appHashes) "v2") := by
  intro hsound
  have hlevels : appBuild.packageGraph.levels = [[0]] := by decide
  have hagree := hsound 0 0 [0] [0] _ _ (by rw [Run.levels]; exact congrArg (·[0]?) hlevels)
    (by rw [Run.levels]; exact congrArg (·[0]?) hlevels) rfl rfl _ _ rfl rfl rfl rfl
  have happ := hagree.1 0 (List.mem_singleton_self 0) "path+file:///ws/app#0.1.0" rfl
  have hneeds : Needs libAndApp false "path+file:///ws/app#0.1.0" "path+file:///ws/lib#0.1.0" :=
    ⟨0, 1, by decide, by decide, .single (by decide)⟩
  have hlib := hashOf_injective _ (happ.2 _ hneeds)
  exact absurd hlib (by decide)

/-! ## Graphs that leave nothing out -/

/-- The graph that was passed has every dependency that its packages have in the workspace. -/
def Run.Closed (r : Run hash m includeDev) : Prop :=
  ∀ a b id : ℕ, (m.buildGraphWith includeDev).2.Edge a b →
    r.package id = ((m.buildGraphWith includeDev).2.node b).map (·.payload) →
      ∃ dep ∈ r.build.packageGraph.depList id,
        r.package dep = ((m.buildGraphWith includeDev).2.node a).map (·.payload)

/-- Different packages have different inputs. -/
def DistinctInputs (r r' : Run hash m includeDev) : Prop :=
  ∀ id id' package package', r.package id = some package → r'.package id' = some package' →
    r.own package = r'.own package' → package = package'

/-- The inputs of a node are those of its package. -/
theorem Run.ownOf_eq (r : Run hash m includeDev) {id : NodeId} {package : PackageId}
    (hpackage : r.package id = some package) : r.build.ownOf hash r.fs id = r.own package := by
  obtain ⟨node, hnode, rfl⟩ := Option.map_eq_some_iff.mp hpackage
  rw [Build.ownOf, hnode]
  rfl

/-- A node that looks like one of a graph is in the graph. -/
theorem Run.exists_package (r : Run hash m includeDev) {id : NodeId} (hid : id ∈ r.levels.flatten) :
    ∃ package, r.package id = some package := by
  have hlt : id < r.build.packageGraph.nodes.length := r.wellFormed.mem_levels_iff.mp hid
  exact ⟨_, by rw [package, BuildGraph.node, List.getElem?_eq_getElem hlt]; rfl⟩

/-- A dependency is in the graph. -/
theorem Run.mem_levels_of_mem_depList (r : Run hash m includeDev) {id dep : NodeId}
    (hdep : dep ∈ r.build.packageGraph.depList id) : dep ∈ r.levels.flatten :=
  r.wellFormed.mem_levels_iff.mpr (r.wellFormed.depList_lt hdep)

section Closed

variable {r r' : Run hash m includeDev} (hclosed : r.Closed) (hdistinct : DistinctInputs r r')

/-- The relation of nodes that look alike in two runs. -/
abbrev RunsAlike (r r' : Run hash m includeDev) : NodeId → NodeId → Prop :=
  Alike (r.build.ownOf hash r.fs) r.build.packageGraph.depList (r'.build.ownOf hash r'.fs)
    r'.build.packageGraph.depList

include hdistinct in
/-- Nodes that look alike are of one package, with the same inputs. -/
theorem package_of_alike {id id' : NodeId} (halike : RunsAlike r r' id id') (hid' : id' ∈ r'.levels.flatten)
    {package : PackageId} (hpackage : r.package id = some package) :
    r'.package id' = some package ∧ r.own package = r'.own package := by
  obtain ⟨package', hpackage'⟩ := r'.exists_package hid'
  obtain ⟨hsame, -, -, -⟩ := halike
  rw [r.ownOf_eq hpackage, r'.ownOf_eq hpackage'] at hsame
  obtain rfl := hdistinct id id' package package' hpackage hpackage' hsame
  exact ⟨hpackage', hsame⟩

include hclosed hdistinct in
/-- When nothing is left out, what a package needs has the same inputs in both runs as soon as its nodes
look alike. -/
theorem agree_of_alike {id id' : NodeId} (halike : RunsAlike r r' id id') (hid' : id' ∈ r'.levels.flatten)
    {package : PackageId} (hpackage : r.package id = some package) : Agree r r' package := by
  refine ⟨(package_of_alike hdistinct halike hid' hpackage).2, ?_⟩
  rintro needed ⟨a, b, ha, hb, hpath⟩
  -- Follow the path from the package to what it needs, with a pair of nodes that look alike.
  induction hpath generalizing id id' package with
  | refl =>
    obtain rfl := Option.some.inj (ha.symm.trans hb)
    exact (package_of_alike hdistinct halike hid' hpackage).2
  | tail _ hedge ih =>
    obtain ⟨dep, hdep, hdepPackage⟩ := hclosed _ _ id hedge (hpackage.trans hb.symm)
    obtain ⟨package', hpackage'⟩ := r.exists_package (r.mem_levels_of_mem_depList hdep)
    obtain ⟨-, matched, hperm, hbelow⟩ := halike
    obtain ⟨dep', hdep', hdepAlike⟩ := exists_of_forall₂_mem hbelow hdep
    exact ih hdepAlike (r'.mem_levels_of_mem_depList (hperm.mem_iff.mp hdep')) hpackage'
      (hdepPackage.symm.trans hpackage')

include hclosed hdistinct in
/-- When the graph of a run has all dependencies and different packages have different inputs, its
fingerprints are sound. -/
theorem sound_of_closed (hhash : Function.Injective hash) : Sound r r' := by
  rw [sound_iff hhash]
  intro level hlevel level' hlevel' _ halike
  have hknown : ∀ id ∈ level, id ∈ r.levels.flatten := fun id hid => List.mem_flatten.mpr ⟨level, hlevel, hid⟩
  have hknown' : ∀ id ∈ level', id ∈ r'.levels.flatten := fun id hid => List.mem_flatten.mpr ⟨level', hlevel', hid⟩
  obtain ⟨matched, hperm, hmatched⟩ := halike
  constructor
  · intro id hid package hpackage
    obtain ⟨id', hid', hidAlike⟩ := exists_of_forall₂_mem hmatched hid
    exact agree_of_alike hclosed hdistinct hidAlike (hknown' id' (hperm.mem_iff.mp hid')) hpackage
  · intro id' hid' package' hpackage'
    obtain ⟨id, hid, hidAlike⟩ := exists_of_forall₂_mem hmatched.flip (hperm.mem_iff.mpr hid')
    obtain ⟨package, hpackage⟩ := r.exists_package (hknown id hid)
    have hsame := (package_of_alike hdistinct hidAlike (hknown' id' hid') hpackage).1
    obtain rfl := Option.some.inj (hsame.symm.trans hpackage')
    exact agree_of_alike hclosed hdistinct hidAlike (hknown' id' hid') hpackage

end Closed

end Forge.Backend.Rust
