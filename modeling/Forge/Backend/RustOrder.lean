import Forge.Backend.RustSoundness
import Forge.Graph.Merging
import Forge.Graph.QueryTraversals

/-!
# The tasks keep the order of the packages

A package depends only on packages of earlier levels, so that all dependencies between tasks
go from an earlier task to a later one, and none is rejected. Every dependency of a package
is one of its task, and so is every path of dependencies.
-/

namespace Forge.Backend.Rust.Build

open Relation Forge.Common Forge.Graph Forge.Graph.BuildGraph Forge.Project Forge.Fingerprint Forge.Executor

variable {hash : Bytes → String} {fs : Tree} {b : Build}

/-! ## The fingerprints -/

/-- Making the fingerprint of a node of the graph fails only for the directory of its package. -/
theorem fingerprintNode_error (hwf : b.packageGraph.WellFormed) {fingerprints : Fingerprints} {id : NodeId}
    (hid : id < b.packageGraph.len) {failure : Failure}
    (herror : b.fingerprintNode hash fs fingerprints id = .error failure) :
    ∃ node, b.packageGraph.node id = some node ∧ b.packageDir node.payload = .error failure := by
  unfold fingerprintNode at herror
  split at herror
  · rename_i hnone
    have hsome := List.getElem?_eq_getElem (l := b.packageGraph.nodes) hid
    rw [BuildGraph.node, hsome] at hnone
    exact absurd hnone (Option.some_ne_none _)
  · rename_i node hnode
    refine ⟨node, hnode, ?_⟩
    split at herror
    · rename_i hdir
      rw [hdir, Except.error.inj herror]
    · rw [hwf.depsOf_eq hid] at herror
      cases herror

/-- Making the fingerprints of nodes of the graph fails only for the directory of a package. -/
theorem fingerprintNodes_error (hwf : b.packageGraph.WellFormed) {ids : List NodeId} {fingerprints : Fingerprints}
    (hids : ∀ id ∈ ids, id < b.packageGraph.len) {failure : Failure}
    (herror : b.fingerprintNodes hash fs ids fingerprints = .error failure) :
    ∃ node ∈ b.packageGraph.nodes, b.packageDir node.payload = .error failure := by
  induction ids generalizing fingerprints with
  | nil => exact absurd herror nofun
  | cons id ids ih =>
    rw [fingerprintNodes] at herror
    split at herror
    · rename_i failure' hnode
      obtain ⟨node, hmem, hdir⟩ := fingerprintNode_error hwf (hids id List.mem_cons_self) hnode
      exact ⟨node, List.mem_of_getElem? hmem, by rw [hdir, Except.error.inj herror]⟩
    · exact ih (fun other hother => hids other (List.mem_cons_of_mem _ hother)) herror

/-- There is no directory of a known package only if its manifest is in none. -/
theorem packageDir_error {id : PackageId} (hknown : (b.project.package id).isSome) {failure : Failure}
    (herror : b.packageDir id = .error failure) :
    failure = .err (.message ("package `" ++ id ++ "` has no manifest directory")) ∧
      ∃ package, b.project.package id = some package ∧ parent package.manifestPath = none := by
  obtain ⟨package, hpackage⟩ := Option.isSome_iff_exists.mp hknown
  rw [packageDir, hpackage] at herror
  dsimp only at herror
  split at herror
  · rename_i hparent
    exact ⟨(Except.error.inj herror).symm, package, hpackage, hparent⟩
  · exact absurd herror nofun

/-! ## The tasks of the levels -/

/-- A task is found for the nodes that were noted with it. -/
theorem lookup_level (level : List NodeId) (task id : NodeId) :
    (level.map fun member => (member, task)).lookup id = if id ∈ level then some task else none := by
  induction level with
  | nil => rfl
  | cons other level ih =>
    rw [List.map_cons, List.lookup_cons]
    by_cases heq : id = other
    · rw [heq, beq_self_eq_true, if_pos List.mem_cons_self]
    · simp only [beq_false_of_ne heq, ih, List.mem_cons, heq, false_or]

/-- A node that is on none of the levels keeps its task. -/
theorem lookup_addTasks_of_notMem {fingerprints : Fingerprints} {levels : List (List NodeId)}
    {levelNode : List (NodeId × NodeId)} {taskGraph : BuildGraph Task} {id : NodeId} (hid : id ∉ levels.flatten) :
    (b.addTasks hash fingerprints levels levelNode taskGraph).1.lookup id = levelNode.lookup id := by
  induction levels generalizing levelNode taskGraph with
  | nil => rfl
  | cons level levels ih =>
    rw [List.flatten_cons, List.mem_append, not_or] at hid
    rw [addTasks]
    refine (ih hid.2).trans ?_
    rw [List.lookup_append, lookup_level, if_neg hid.1, Option.none_or]

/-- A node has the task of its level. -/
theorem lookup_addTasks {fingerprints : Fingerprints} {levels : List (List NodeId)}
    {levelNode : List (NodeId × NodeId)} {taskGraph : BuildGraph Task} (hnodup : levels.flatten.Nodup) {k : ℕ}
    {level : List NodeId} (hlevel : levels[k]? = some level) {id : NodeId} (hid : id ∈ level) :
    (b.addTasks hash fingerprints levels levelNode taskGraph).1.lookup id = some (taskGraph.len + k) := by
  induction levels generalizing levelNode taskGraph k with
  | nil => exact absurd hlevel nofun
  | cons first levels ih =>
    rw [List.flatten_cons, List.nodup_append] at hnodup
    obtain ⟨-, hrest, hdisjoint⟩ := hnodup
    rw [addTasks]
    cases k with
    | zero =>
      obtain rfl := Option.some.inj hlevel
      have hlater : id ∉ levels.flatten := fun hmem => hdisjoint id hid id hmem rfl
      refine (lookup_addTasks_of_notMem hlater).trans ?_
      rw [List.lookup_append, lookup_level, if_pos hid, Option.some_or]
      rfl
    | succ k =>
      refine (ih hrest hlevel).trans ?_
      have hlen := len_addNode taskGraph (b.levelTask hash fingerprints first)
      rw [addNode] at hlen
      rw [hlen]
      exact congrArg some (by omega)

/-- Adding the tasks makes a graph without dependencies. -/
theorem addTasks_graph (hash : Bytes → String) (b : Build) (fingerprints : Fingerprints)
    (levels : List (List NodeId)) (levelNode : List (NodeId × NodeId)) {taskGraph : BuildGraph Task} (hwf : taskGraph.WellFormed) :
    (b.addTasks hash fingerprints levels levelNode taskGraph).2.WellFormed ∧
      (b.addTasks hash fingerprints levels levelNode taskGraph).2.len = taskGraph.len + levels.length ∧
      (b.addTasks hash fingerprints levels levelNode taskGraph).2.Edge = taskGraph.Edge := by
  induction levels generalizing levelNode taskGraph with
  | nil => exact ⟨hwf, rfl, rfl⟩
  | cons level levels ih =>
    obtain ⟨hwf', hlen, hedge⟩ := ih (level.map (·, taskGraph.nodes.length) ++ levelNode)
      (hwf.addNode (b.levelTask hash fingerprints level))
    rw [len_addNode] at hlen
    rw [edge_addNode] at hedge
    refine ⟨hwf', hlen.trans ?_, hedge⟩
    rw [List.length_cons]
    omega

/-! ## The dependencies between the tasks -/

/-- The dependencies that packages bring between their tasks. -/
def packageEdges (b : Build) (taskOf : NodeId → NodeId) (ids : List NodeId) : List (NodeId × NodeId) :=
  ids.flatMap fun id => (b.packageGraph.depList id).map fun dep => (taskOf dep, taskOf id)

/-- The dependencies of two parts of the packages. -/
theorem packageEdges_append (taskOf : NodeId → NodeId) (ids later : List NodeId) :
    b.packageEdges taskOf (ids ++ later) = b.packageEdges taskOf ids ++ b.packageEdges taskOf later :=
  List.flatMap_append

/-- The packages of one task bring their dependencies to it. -/
theorem packageEdges_of_task {taskOf : NodeId → NodeId} {ids : List NodeId} {task : NodeId}
    (htask : ∀ id ∈ ids, taskOf id = task) :
    b.packageEdges taskOf ids = (ids.flatMap b.packageGraph.depList).map fun dep => (taskOf dep, task) := by
  rw [packageEdges, List.map_flatMap]
  refine List.flatMap_congr fun id hid => ?_
  rw [htask id hid]

/-- Every dependency comes from one of a package. -/
theorem mem_packageEdges {taskOf : NodeId → NodeId} {ids : List NodeId} {edge : NodeId × NodeId} :
    edge ∈ b.packageEdges taskOf ids ↔
      ∃ id ∈ ids, ∃ dep ∈ b.packageGraph.depList id, (taskOf dep, taskOf id) = edge := by
  simp only [packageEdges, List.mem_flatMap, List.mem_map]

/-- Dependencies on earlier tasks are all added. -/
theorem taskDeps_eq {levelNode : List (NodeId × NodeId)} {taskOf : NodeId → NodeId} {node : NodeId}
    {deps : List NodeId} {taskGraph : BuildGraph Task} (hwf : taskGraph.WellFormed)
    (hforward : ∀ x y, taskGraph.Edge x y → x < y) (hnode : node < taskGraph.len)
    (hdeps : ∀ dep ∈ deps, levelNode.lookup dep = some (taskOf dep) ∧ taskOf dep < node) :
    taskDeps levelNode node deps taskGraph =
      .ok (addEdges (deps.map fun dep => (taskOf dep, node)) taskGraph) := by
  induction deps generalizing taskGraph with
  | nil => rfl
  | cons dep deps ih =>
    obtain ⟨⟨hlookup, hlt⟩, hrest⟩ := List.forall_mem_cons.mp hdeps
    have hok := hwf.addDependency_ok acyclic_lt hforward (hlt.trans hnode) hnode hlt
    have hnext := hwf.addDependency (taskOf dep) node
    rw [hok] at hnext
    have hforward' : ∀ x y, (taskGraph.pushEdge (taskOf dep) node).Edge x y → x < y := by
      rw [edge_pushEdge taskGraph (by rw [hwf.dependentsLength]; exact hlt.trans hnode)]
      rintro x y (hedge | ⟨rfl, rfl⟩)
      · exact hforward x y hedge
      · exact hlt
    rw [taskDeps, hlookup]
    dsimp only
    rw [if_neg hlt.ne, hok, List.map_cons, addEdges, List.foldl_cons, hok]
    exact ih hnext hforward' hnode hrest

/-- The dependencies of all levels are added, each to the graph with those before it. -/
theorem addTaskDeps_eq {levelNode : List (NodeId × NodeId)} {taskOf : NodeId → NodeId} {levels : List (List NodeId)}
    {taskGraph : BuildGraph Task} (hwf : taskGraph.WellFormed) (hforward : ∀ x y, taskGraph.Edge x y → x < y)
    (hne : ∀ level ∈ levels, level ≠ [])
    (hsame : ∀ level ∈ levels, ∀ x ∈ level, ∀ y ∈ level, taskOf x = taskOf y)
    (hnodes : ∀ id ∈ levels.flatten, levelNode.lookup id = some (taskOf id) ∧ taskOf id < taskGraph.len)
    (hdeps : ∀ id ∈ levels.flatten, ∀ dep ∈ b.packageGraph.depList id,
      levelNode.lookup dep = some (taskOf dep) ∧ taskOf dep < taskOf id) :
    b.addTaskDeps levelNode levels taskGraph = .ok (addEdges (b.packageEdges taskOf levels.flatten) taskGraph) ∧
      taskGraph.AddsEdges (b.packageEdges taskOf levels.flatten)
        (addEdges (b.packageEdges taskOf levels.flatten) taskGraph) := by
  have hedges : ∀ edge ∈ b.packageEdges taskOf levels.flatten,
      edge.1 < taskGraph.len ∧ edge.2 < taskGraph.len ∧ edge.1 < edge.2 := by
    intro edge hedge
    obtain ⟨id, hid, dep, hdep, rfl⟩ := mem_packageEdges.mp hedge
    have hlt := (hdeps id hid dep hdep).2
    exact ⟨hlt.trans (hnodes id hid).2, (hnodes id hid).2, hlt⟩
  refine ⟨?_, (hwf.addEdges acyclic_lt hforward hedges).1⟩
  induction levels generalizing taskGraph with
  | nil => rfl
  | cons level levels ih =>
    rw [List.flatten_cons] at hnodes hdeps hedges ⊢
    rw [packageEdges_append] at hedges
    obtain ⟨first, rest, rfl⟩ := List.exists_cons_of_ne_nil (hne level List.mem_cons_self)
    have htask : ∀ id ∈ first :: rest, taskOf id = taskOf first := fun id hid =>
      hsame _ List.mem_cons_self id hid first List.mem_cons_self
    obtain ⟨hfirst, hlt⟩ := hnodes first (List.mem_append_left _ List.mem_cons_self)
    have hbelow : ∀ dep ∈ (first :: rest).flatMap b.packageGraph.depList,
        levelNode.lookup dep = some (taskOf dep) ∧ taskOf dep < taskOf first := by
      intro dep hdep
      obtain ⟨id, hid, hmem⟩ := List.mem_flatMap.mp hdep
      rw [← htask id hid]
      exact hdeps id (List.mem_append_left _ hid) dep hmem
    have hown : ∀ edge ∈ b.packageEdges taskOf (first :: rest),
        edge.1 < taskGraph.len ∧ edge.2 < taskGraph.len ∧ edge.1 < edge.2 := fun edge hedge =>
      hedges edge (List.mem_append_left _ hedge)
    have hadded := (hwf.addEdges acyclic_lt hforward hown).1
    have hforward' := hadded.edges_subset hforward fun edge hedge => (hown edge hedge).2.2
    rw [addTaskDeps, List.head?_cons, Option.bind_some, hfirst]
    dsimp only
    rw [taskDeps_eq hwf hforward hlt hbelow, ← packageEdges_of_task htask, packageEdges_append, addEdges_append]
    dsimp only
    refine ih hadded.wellFormed hforward' (fun l hl => hne l (List.mem_cons_of_mem _ hl))
      (fun l hl => hsame l (List.mem_cons_of_mem _ hl)) ?_ (fun id hid => hdeps id (List.mem_append_right _ hid)) ?_
    · intro id hid
      rw [hadded.len_eq]
      exact hnodes id (List.mem_append_right _ hid)
    · intro edge hedge
      rw [hadded.len_eq]
      exact hedges edge (List.mem_append_right _ hedge)

/-! ## The order of the packages -/

/-- The packages that a task is for. -/
def members (b : Build) (task : NodeId) : List NodeId :=
  b.sortedMembers (b.packageGraph.levels[task]?.getD [])

/-- Tasks keep the order of the packages: a task runs cargo for its packages, every package is once
in exactly one task, a package that depends on another one is in a task that depends on the task
of the other one, and the packages of a task do not depend on each other. -/
structure KeepsOrder (b : Build) (taskGraph : BuildGraph Task) (taskOf : NodeId → NodeId) : Prop where
  command : ∀ task node, taskGraph.node task = some node → node.payload.spec.args =
    b.mode.cargoSubcommand :: (b.members task).flatMap fun id => ["--package", b.packageName id]
  exists_task : ∀ id < b.packageGraph.len, taskOf id < taskGraph.len
  once : ∀ id < b.packageGraph.len, ∀ task, (b.members task).count id = if task = taskOf id then 1 else 0
  order : ∀ dep id, TransGen b.packageGraph.Edge dep id → TransGen taskGraph.Edge (taskOf dep) (taskOf id)
  apart : ∀ task, ∀ x ∈ b.members task, ∀ y ∈ b.members task, ¬ TransGen b.packageGraph.Edge x y

/-- The level of a node as its task. -/
structure Numbered (b : Build) (taskOf : NodeId → NodeId) : Prop where
  level : ∀ k level, b.packageGraph.levels[k]? = some level → ∀ id ∈ level, taskOf id = k
  below : ∀ dep id : ℕ, b.packageGraph.Edge dep id → taskOf dep < taskOf id

/-- The levels number the nodes. -/
theorem exists_numbered (hwf : b.packageGraph.WellFormed) : ∃ taskOf, Numbered b taskOf := by
  obtain ⟨levelOf, hinv⟩ := hwf.levels_inv
  refine ⟨fun id => levelOf[id]?.getD 0, ⟨fun k level hlevel id hid => ?_, fun dep id hedge => ?_⟩⟩
  · rw [hinv.level k level hlevel id hid, Option.getD_some]
  · have hplaced := (hwf.mem_topologicalOrder id).mpr (hwf.inRange dep id hedge)
    obtain ⟨-, j, k, hj, hk, hlt⟩ := hinv.below id hplaced dep (hwf.mem_depList_iff.mpr hedge)
    rwa [hj, hk, Option.getD_some, Option.getD_some]

/-- A path of dependencies goes to later levels. -/
theorem Numbered.lt {taskOf : NodeId → NodeId} (h : Numbered b taskOf) {dep id : NodeId}
    (hpath : TransGen b.packageGraph.Edge dep id) : taskOf dep < taskOf id := by
  have hlift : TransGen (fun x y : ℕ => x < y) (taskOf dep) (taskOf id) := TransGen.lift taskOf h.below dep id hpath
  rwa [transGen_eq_self] at hlift

/-- The packages of a task are on its level. -/
theorem exists_level_of_mem_members {task id : NodeId} (hid : id ∈ b.members task) :
    ∃ level, b.packageGraph.levels[task]? = some level ∧ id ∈ level := by
  have hmem := (b.sortedMembers_perm _).mem_iff.mp hid
  cases hlevel : b.packageGraph.levels[task]? with
  | none =>
    rw [hlevel] at hmem
    exact absurd hmem List.not_mem_nil
  | some level =>
    rw [hlevel] at hmem
    exact ⟨level, rfl, hmem⟩

/-- A node of the graph is on its level. -/
theorem Numbered.exists_level {taskOf : NodeId → NodeId} (h : Numbered b taskOf) (hwf : b.packageGraph.WellFormed)
    {id : NodeId} (hid : id < b.packageGraph.len) :
    ∃ level, b.packageGraph.levels[taskOf id]? = some level ∧ id ∈ level := by
  obtain ⟨level, hlevel, hmem⟩ := List.mem_flatten.mp (hwf.mem_levels_iff.mpr hid)
  obtain ⟨k, hk⟩ := List.mem_iff_getElem?.mp hlevel
  exact ⟨level, by rw [h.level k level hk id hmem, hk], hmem⟩

/-- The packages of a level have one task. -/
theorem Numbered.same {taskOf : NodeId → NodeId} (h : Numbered b taskOf) :
    ∀ level ∈ b.packageGraph.levels, ∀ x ∈ level, ∀ y ∈ level, taskOf x = taskOf y := by
  intro level hlevel x hx y hy
  obtain ⟨k, hk⟩ := List.mem_iff_getElem?.mp hlevel
  rw [h.level k level hk x hx, h.level k level hk y hy]

/-- A package is once in its task, and in no other one. -/
theorem Numbered.count_members {taskOf : NodeId → NodeId} (h : Numbered b taskOf) (hwf : b.packageGraph.WellFormed)
    {id : NodeId} (hid : id < b.packageGraph.len) (task : NodeId) :
    (b.members task).count id = if task = taskOf id then 1 else 0 := by
  have hnodup : b.packageGraph.levels.flatten.Nodup := hwf.levels_perm.nodup_iff.mpr List.nodup_range
  obtain ⟨level, hlevel, hmem⟩ := h.exists_level hwf hid
  split
  · rename_i heq
    rw [heq, members, hlevel, Option.getD_some, (b.sortedMembers_perm level).count_eq]
    exact List.count_eq_one_of_mem ((List.nodup_flatten.mp hnodup).1 level (List.mem_of_getElem? hlevel)) hmem
  · rename_i hne
    refine List.count_eq_zero.mpr fun hmember => ?_
    obtain ⟨level', hlevel', hmem'⟩ := exists_level_of_mem_members hmember
    exact hne (h.level task level' hlevel' id hmem').symm

/-- The command of the task of a level. -/
theorem args_levelTask (fingerprints : Fingerprints) (level : List NodeId) :
    (b.levelTask hash fingerprints level).spec.args =
      b.mode.cargoSubcommand :: (b.sortedMembers level).flatMap fun id => ["--package", b.packageName id] := by
  simp [levelTask, names, List.flatMap_map]

/-- The tasks of the levels, with their dependencies. -/
theorem createTasks_ok (hwf : b.packageGraph.WellFormed) {taskOf : NodeId → NodeId} (h : Numbered b taskOf)
    {fingerprints : Fingerprints} (hfingerprints : b.fingerprints hash fs = .ok fingerprints) :
    ∃ taskGraph, b.createTasks hash fs = .ok taskGraph ∧ taskGraph.len = b.packageGraph.levels.length ∧
      ∀ x y, taskGraph.Edge x y ↔ ∃ dep id : ℕ, b.packageGraph.Edge dep id ∧ taskOf dep = x ∧ taskOf id = y := by
  have hnodup : b.packageGraph.levels.flatten.Nodup := hwf.levels_perm.nodup_iff.mpr List.nodup_range
  obtain ⟨-, -, -, hne⟩ := hwf.levels_depth
  obtain ⟨hwf', hlen, hedge⟩ := addTasks_graph hash b fingerprints b.packageGraph.levels []
    (WellFormed.new : (BuildGraph.new : BuildGraph Task).WellFormed)
  have hzero : (BuildGraph.new : BuildGraph Task).len = 0 := rfl
  rw [hzero, Nat.zero_add] at hlen
  have hnone : ∀ x y, ¬ (BuildGraph.new : BuildGraph Task).Edge x y := fun x y h => List.not_mem_nil h
  have hforward : ∀ x y, (b.addTasks hash fingerprints b.packageGraph.levels [] BuildGraph.new).2.Edge x y → x < y := by
    rw [hedge]
    exact fun x y hxy => absurd hxy (hnone x y)
  have hnodes : ∀ id ∈ b.packageGraph.levels.flatten,
      (b.addTasks hash fingerprints b.packageGraph.levels [] BuildGraph.new).1.lookup id = some (taskOf id) ∧
        taskOf id < (b.addTasks hash fingerprints b.packageGraph.levels [] BuildGraph.new).2.len := by
    intro id hid
    obtain ⟨level, hlevel, hmem⟩ := h.exists_level hwf (hwf.mem_levels_iff.mp hid)
    rw [lookup_addTasks hnodup hlevel hmem, hzero, Nat.zero_add, hlen]
    exact ⟨rfl, (List.getElem?_eq_some_iff.mp hlevel).1⟩
  have hdeps : ∀ id ∈ b.packageGraph.levels.flatten, ∀ dep ∈ b.packageGraph.depList id,
      (b.addTasks hash fingerprints b.packageGraph.levels [] BuildGraph.new).1.lookup dep = some (taskOf dep) ∧
        taskOf dep < taskOf id := by
    intro id _ dep hdep
    exact ⟨(hnodes dep (hwf.mem_levels_iff.mpr (hwf.depList_lt hdep))).1, h.below dep id (hwf.mem_depList_iff.mp hdep)⟩
  obtain ⟨hok, hadds⟩ := addTaskDeps_eq hwf' hforward hne h.same hnodes hdeps
  have hmade : b.createTasks hash fs = .ok (addEdges (b.packageEdges taskOf b.packageGraph.levels.flatten)
      (b.addTasks hash fingerprints b.packageGraph.levels [] BuildGraph.new).2) := by
    rw [createTasks, hfingerprints]
    exact hok
  refine ⟨_, hmade, ?_, fun x y => ?_⟩
  · exact hadds.len_eq.trans hlen
  · rw [hadds.edge_iff, hedge, or_iff_right (hnone x y), mem_packageEdges]
    constructor
    · rintro ⟨id, -, dep, hdep, heq⟩
      obtain ⟨rfl, rfl⟩ := Prod.mk.inj heq
      exact ⟨dep, id, hwf.mem_depList_iff.mp hdep, rfl, rfl⟩
    · rintro ⟨dep, id, hab, rfl, rfl⟩
      exact ⟨id, hwf.mem_levels_iff.mpr (hwf.inRange dep id hab), dep, hwf.mem_depList_iff.mpr hab, rfl⟩

/-- Making the tasks fails only when the manifest of a package is in no directory, and the tasks that
are made keep the order of the packages. -/
theorem createTasks_keepsOrder (hash : Bytes → String) (fs : Tree) (b : Build) (hwf : b.packageGraph.WellFormed)
    (hknown : ∀ node ∈ b.packageGraph.nodes, (b.project.package node.payload).isSome) :
    (∀ failure, b.createTasks hash fs = .error failure → ∃ node ∈ b.packageGraph.nodes,
      failure = .err (.message ("package `" ++ node.payload ++ "` has no manifest directory")) ∧
        ∃ package, b.project.package node.payload = some package ∧ parent package.manifestPath = none) ∧
      ∀ taskGraph, b.createTasks hash fs = .ok taskGraph → ∃ taskOf, KeepsOrder b taskGraph taskOf := by
  obtain ⟨taskOf, hnumbered⟩ := exists_numbered hwf
  constructor
  · intro failure herror
    cases hfingerprints : b.fingerprints hash fs with
    | error e =>
      rw [createTasks, hfingerprints] at herror
      obtain rfl := Except.error.inj herror
      obtain ⟨node, hmem, hdir⟩ :=
        fingerprintNodes_error hwf (fun id hid => hwf.mem_levels_iff.mp hid) hfingerprints
      exact ⟨node, hmem, packageDir_error (hknown node hmem) hdir⟩
    | ok fingerprints =>
      obtain ⟨taskGraph, hok, -⟩ := createTasks_ok hwf hnumbered hfingerprints
      rw [hok] at herror
      exact absurd herror nofun
  · intro taskGraph hmade
    obtain ⟨fingerprints, hfingerprints, hpayloads⟩ := createTasks_payloads hmade
    obtain ⟨taskGraph', hok, hlen, hedge⟩ := createTasks_ok hwf hnumbered hfingerprints
    obtain rfl := Except.ok.inj (hmade.symm.trans hok)
    refine ⟨taskOf, ⟨?_, ?_, fun id hid => hnumbered.count_members hwf hid, ?_, ?_⟩⟩
    · intro task node hnode
      have hpayload := congrArg (fun l : List Task => l[task]?) hpayloads
      simp only [List.getElem?_map] at hpayload
      rw [BuildGraph.node] at hnode
      rw [hnode] at hpayload
      obtain ⟨level, hlevel, htask⟩ := Option.map_eq_some_iff.mp hpayload.symm
      have hnodeTask : node.payload = b.levelTask hash fingerprints level := htask.symm
      rw [hnodeTask, args_levelTask, members, hlevel, Option.getD_some]
    · intro id hid
      obtain ⟨level, hlevel, -⟩ := hnumbered.exists_level hwf hid
      rw [hlen]
      exact (List.getElem?_eq_some_iff.mp hlevel).1
    · intro dep id hpath
      exact TransGen.lift taskOf (fun x y hxy => (hedge _ _).mpr ⟨x, y, hxy, rfl, rfl⟩) dep id hpath
    · intro task x hx y hy hpath
      obtain ⟨level, hlevel, hxmem⟩ := exists_level_of_mem_members hx
      obtain ⟨level', hlevel', hymem⟩ := exists_level_of_mem_members hy
      have hlt := hnumbered.lt hpath
      rw [hnumbered.level task level hlevel x hxmem, hnumbered.level task level' hlevel' y hymem] at hlt
      exact lt_irrefl task hlt

/-- A build of a library and an application that needs it. -/
def wholeBuild : Build := ⟨⟨"rustc 1.90.0", "cargo"⟩, libAndApp, (libAndApp.buildGraphWith false).2, .build, true⟩

/-- The application is in a task that depends on the task of the library. -/
theorem createTasks_keepsOrder_libAndApp :
    ∃ taskGraph taskOf, wholeBuild.createTasks (hashOf appHashes) (libAndAppFiles "v1") = .ok taskGraph ∧
      KeepsOrder wholeBuild taskGraph taskOf ∧ TransGen taskGraph.Edge (taskOf 0) (taskOf 1) := by
  obtain ⟨herror, hok⟩ := createTasks_keepsOrder (hashOf appHashes) (libAndAppFiles "v1") wholeBuild
    (packageGraph_wellFormed libAndApp false) (by decide)
  cases hmade : wholeBuild.createTasks (hashOf appHashes) (libAndAppFiles "v1") with
  | error failure =>
    obtain ⟨_, -, -, package, hpackage, hparent⟩ := herror failure hmade
    have hdirectories : ∀ package ∈ libAndApp.packages, parent package.manifestPath ≠ none := by decide
    exact absurd hparent (hdirectories package (List.mem_of_find?_eq_some hpackage))
  | ok taskGraph =>
    obtain ⟨taskOf, hkeeps⟩ := hok taskGraph hmade
    have hedge : wholeBuild.packageGraph.Edge 0 1 := by decide
    exact ⟨taskGraph, taskOf, rfl, hkeeps, hkeeps.order 0 1 (.single hedge)⟩

end Forge.Backend.Rust.Build
