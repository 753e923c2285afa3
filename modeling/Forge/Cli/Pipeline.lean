import Forge.Common.Multimaps
import Forge.Executor.Task
import Forge.Graph.Merging

/-!
# The task graph of a pipeline

A pipeline names tasks by their labels and lists, for a label, what its tasks depend on: a
label of the same package, or with a caret in front, one of the packages upstream. The maps
are iterated in any order. The nodes come in that order, and the edges are added up to the
first that is rejected, so that there is a graph in each order or in none.
-/

namespace Forge.Cli.Pipeline

open Relation Forge.Common Forge.Graph Forge.Graph.BuildGraph Forge.Executor

/-- What a pipeline has for a label. -/
structure PipelineTaskDef where
  dependsOn : List String

/-- The labels of a pipeline. -/
structure PipelineConfig where
  tasks : AList fun _ : String => PipelineTaskDef

/-- The order in which a hash map is iterated, whatever it is. -/
structure HashOrder (α : Type*) where
  order : List α → List α
  perm : ∀ entries, (order entries).Perm entries

/-- A package and a label. -/
abbrev TaskKey := String × String

/-- The key of a task in a package. -/
def keyOf (entry : String × Task) : TaskKey := (entry.1, entry.2.label)

/-- Nodes by their keys. -/
abbrev NodeRegistry := AList fun _ : TaskKey => NodeId

/-- Add a task. -/
def register (state : BuildGraph Task × NodeRegistry) (entry : String × Task) : BuildGraph Task × NodeRegistry :=
  let (nodeId, graph) := state.1.addNode entry.2
  (graph, state.2.insert (keyOf entry) nodeId)

/-- The tasks for which an entry of a list of dependencies stands. -/
def patternKeys (packageDeps : Multimap String String) (package pattern : String) : List TaskKey :=
  match pattern.toList with
  | '^' :: target => ((packageDeps.lookup package).getD []).map fun upstream => (upstream, String.ofList target)
  | _ => [(package, pattern)]

/-- The tasks for which the dependencies of a task stand. -/
def dependencyKeys (config : PipelineConfig) (packageDeps : Multimap String String) (key : TaskKey) : List TaskKey :=
  match config.tasks.lookup key.2 with
  | none => []
  | some taskDef => taskDef.dependsOn.flatMap (patternKeys packageDeps key.1)

/-- The edges that are requested for a task. What is not registered is left out. -/
def taskRequests (config : PipelineConfig) (packageDeps : Multimap String String) (registry : NodeRegistry)
    (entry : Σ _ : TaskKey, NodeId) : List (NodeId × NodeId) :=
  ((dependencyKeys config packageDeps entry.1).filterMap registry.lookup).map fun dep => (dep, entry.2)

/-- The task graph of a pipeline, with the orders in which its packages and the registered tasks are iterated. -/
def buildPipelineGraph (config : PipelineConfig) (packageTasks : Multimap String Task)
    (packageDeps : Multimap String String) (taskOrder : HashOrder (Σ _ : String, List Task))
    (registryOrder : HashOrder (Σ _ : TaskKey, NodeId)) : Except GraphError (BuildGraph Task) :=
  let (graph, registry) :=
    (Multimap.pairsOf (taskOrder.order packageTasks.entries)).foldl register (BuildGraph.new, ∅)
  requestEdges ((registryOrder.order registry.entries).flatMap (taskRequests config packageDeps registry)) graph

/-! ## What is declared -/

/-- A package has a task with a label. -/
def Exists (packageTasks : Multimap String Task) (key : TaskKey) : Prop :=
  ∃ tasks, packageTasks.lookup key.1 = some tasks ∧ ∃ task ∈ tasks, task.label = key.2

/-- The dependencies of an existing task stand for another one. -/
def Declares (config : PipelineConfig) (packageTasks : Multimap String Task) (packageDeps : Multimap String String)
    (dep key : TaskKey) : Prop :=
  Exists packageTasks dep ∧ Exists packageTasks key ∧ dep ∈ dependencyKeys config packageDeps key

/-- A graph has the tasks of each package in their order, and the edges that are declared between the last tasks
with their labels. -/
structure DeclaredGraph (config : PipelineConfig) (packageTasks : Multimap String Task)
    (packageDeps : Multimap String String) (entries : List (String × Task)) (g : BuildGraph Task) : Prop where
  nodes : g.nodes.map (·.payload) = entries.map (·.2)
  packages : ∀ package, (entries.filter (·.1 = package)).map (·.2) = (packageTasks.lookup package).getD []
  edges : ∀ a b, g.Edge a b ↔ ∃ dep key, LastOf keyOf entries dep a ∧ LastOf keyOf entries key b ∧
    Declares config packageTasks packageDeps dep key

/-! ## The nodes -/

/-- What holds after tasks were added: each has its node, and a key leads to that of the last task that has it.
There are no edges. -/
structure Registered (done : List (String × Task)) (state : BuildGraph Task × NodeRegistry) : Prop where
  wellFormed : state.1.WellFormed
  noEdge : ∀ a b, ¬ state.1.Edge a b
  payloads : state.1.nodes.map (·.payload) = done.map (·.2)
  registry : ∀ key id, state.2.lookup key = some id ↔ LastOf keyOf done key id

/-- No task was added at the start. -/
theorem Registered.new : Registered [] (BuildGraph.new, ∅) where
  wellFormed := .new
  noEdge := by simp [BuildGraph.new, Edge, dependentList]
  payloads := rfl
  registry := fun key id => iff_of_false nofun fun h => by simpa using h.lt

/-- The nodes are as many as the tasks added. -/
theorem Registered.len_eq {done : List (String × Task)} {state : BuildGraph Task × NodeRegistry} (h : Registered done state) :
    state.1.len = done.length := by
  have hlength := congrArg List.length h.payloads
  rwa [List.length_map, List.length_map] at hlength

/-- A task is added. -/
theorem Registered.register {done : List (String × Task)} {state : BuildGraph Task × NodeRegistry} (h : Registered done state)
    (entry : String × Task) : Registered (done ++ [entry]) (register state entry) where
  wellFormed := h.wellFormed.addNode entry.2
  noEdge := by
    rw [Pipeline.register, edge_addNode]
    exact h.noEdge
  payloads := by
    rw [Pipeline.register, BuildGraph.addNode, List.map_append, h.payloads, List.map_append]
    rfl
  registry := by
    intro key id
    rw [lastOf_concat_iff, ← h.len_eq]
    change (state.2.insert (keyOf entry) state.1.len).lookup key = some id ↔ _
    by_cases hkey : key = keyOf entry
    · rw [hkey, AList.lookup_insert, if_pos rfl, Option.some.injEq, eq_comm]
    · rw [AList.lookup_insert_ne hkey, if_neg hkey]
      exact h.registry key id

/-- Tasks are added one after the other. -/
theorem Registered.foldl {done : List (String × Task)} {state : BuildGraph Task × NodeRegistry} (h : Registered done state)
    (entries : List (String × Task)) : Registered (done ++ entries) (entries.foldl Pipeline.register state) := by
  induction entries generalizing done state with
  | nil =>
    rw [List.append_nil]
    exact h
  | cons entry entries ih =>
    have hrest := ih (h.register entry)
    rw [List.append_assoc, List.singleton_append] at hrest
    exact hrest

/-! ## The edges -/

section Edges

variable {config : PipelineConfig} {packageTasks : Multimap String Task} {packageDeps : Multimap String String}
  {taskOrder : HashOrder (Σ _ : String, List Task)} {registryOrder : HashOrder (Σ _ : TaskKey, NodeId)}

/-- In any order each package has its tasks. -/
theorem filter_order (packageTasks : Multimap String Task) (taskOrder : HashOrder (Σ _ : String, List Task)) (package : String) :
    ((Multimap.pairsOf (taskOrder.order packageTasks.entries)).filter (·.1 = package)).map (·.2) =
      (packageTasks.lookup package).getD [] := by
  have hperm := taskOrder.perm packageTasks.entries
  have hkeys := (List.perm_nodupKeys hperm).mpr packageTasks.nodupKeys
  rw [Multimap.map_snd_filter_pairsOf hkeys, List.perm_dlookup package hkeys hperm]
  rfl

/-- A key stands for a node exactly when its task exists. -/
theorem exists_iff (key : TaskKey) :
    Exists packageTasks key ↔ ∃ id, LastOf keyOf (Multimap.pairsOf (taskOrder.order packageTasks.entries)) key id := by
  rw [exists_lastOf_iff]
  have htasks := filter_order packageTasks taskOrder key.1
  constructor
  · rintro ⟨tasks, hlookup, task, htask, hlabel⟩
    rw [hlookup, Option.getD_some] at htasks
    rw [← htasks] at htask
    obtain ⟨entry, hentry, rfl⟩ := List.mem_map.mp htask
    obtain ⟨hmem, hpackage⟩ := List.mem_filter.mp hentry
    exact ⟨entry, hmem, Prod.ext (of_decide_eq_true hpackage) hlabel⟩
  · rintro ⟨entry, hentry, rfl⟩
    have hmem : entry.2 ∈ (packageTasks.lookup (keyOf entry).1).getD [] := by
      rw [← htasks]
      exact List.mem_map_of_mem (List.mem_filter.mpr ⟨hentry, decide_eq_true rfl⟩)
    cases hlookup : packageTasks.lookup (keyOf entry).1 with
    | none =>
      rw [hlookup] at hmem
      exact absurd hmem List.not_mem_nil
    | some tasks =>
      rw [hlookup] at hmem
      exact ⟨tasks, hlookup, entry.2, hmem, rfl⟩

/-- The requested edges are those that are declared, in any order. -/
theorem mem_requests_iff {entries : List (String × Task)} {state : BuildGraph Task × NodeRegistry}
    (h : Registered entries state) (hexists : ∀ key, Exists packageTasks key ↔ ∃ id, LastOf keyOf entries key id) (a b : ℕ) :
    (a, b) ∈ (registryOrder.order state.2.entries).flatMap (taskRequests config packageDeps state.2) ↔
      ∃ dep key, LastOf keyOf entries dep a ∧ LastOf keyOf entries key b ∧
        Declares config packageTasks packageDeps dep key := by
  constructor
  · intro hmem
    obtain ⟨⟨key, id⟩, hentry, hrequest⟩ := List.mem_flatMap.mp hmem
    obtain ⟨found, hfound, heq⟩ := List.mem_map.mp hrequest
    obtain ⟨rfl, rfl⟩ := Prod.mk.inj heq
    obtain ⟨dep, hdep, hlookup⟩ := List.mem_filterMap.mp hfound
    have hkey : state.2.lookup key = some id := AList.mem_lookup_iff.mpr ((registryOrder.perm _).mem_iff.mp hentry)
    have hlastDep := (h.registry dep _).mp hlookup
    have hlastKey := (h.registry key _).mp hkey
    exact ⟨dep, key, hlastDep, hlastKey, (hexists dep).mpr ⟨_, hlastDep⟩, (hexists key).mpr ⟨_, hlastKey⟩, hdep⟩
  · rintro ⟨dep, key, hlastDep, hlastKey, -, -, hdep⟩
    have hentry : (⟨key, b⟩ : Σ _ : TaskKey, NodeId) ∈ registryOrder.order state.2.entries :=
      (registryOrder.perm _).mem_iff.mpr (AList.mem_lookup_iff.mp ((h.registry key b).mpr hlastKey))
    refine List.mem_flatMap.mpr ⟨_, hentry, List.mem_map.mpr ⟨a, List.mem_filterMap.mpr ⟨dep, hdep, ?_⟩, rfl⟩⟩
    exact (h.registry dep a).mpr hlastDep

/-- Edges between the nodes of keys close a cycle exactly when the keys do. -/
theorem acyclic_lastOf_iff {entries : List (String × Task)} {declares : TaskKey → TaskKey → Prop}
    (hexists : ∀ dep key, declares dep key → (∃ id, LastOf keyOf entries dep id) ∧ ∃ id, LastOf keyOf entries key id) :
    (Acyclic fun a b => ∃ dep key, LastOf keyOf entries dep a ∧ LastOf keyOf entries key b ∧ declares dep key) ↔
      Acyclic declares := by
  classical
  constructor
  · intro hacyclic key hcycle
    let idOf : TaskKey → ℕ := fun key => if h : ∃ id, LastOf keyOf entries key id then h.choose else 0
    have hidOf : ∀ key, (∃ id, LastOf keyOf entries key id) → LastOf keyOf entries key (idOf key) := by
      intro key hkey
      rw [show idOf key = hkey.choose from dif_pos hkey]
      exact hkey.choose_spec
    refine hacyclic (idOf key) (TransGen.lift idOf (fun dep key hdep => ?_) key key hcycle)
    exact ⟨dep, key, hidOf dep (hexists dep key hdep).1, hidOf key (hexists dep key hdep).2, hdep⟩
  · intro hacyclic id hcycle
    let keyAt : ℕ → TaskKey := fun id => (entries[id]?.map keyOf).getD ("", "")
    have hkeyAt : ∀ {key id}, LastOf keyOf entries key id → keyAt id = key := by
      rintro key id ⟨⟨entry, hentry, rfl⟩, -⟩
      rw [show keyAt id = (entries[id]?.map keyOf).getD ("", "") from rfl, hentry]
      rfl
    refine hacyclic (keyAt id) (TransGen.lift keyAt (fun a b hedge => ?_) id id hcycle)
    obtain ⟨dep, key, hdep, hkey, hdeclares⟩ := hedge
    change declares (keyAt a) (keyAt b)
    rw [hkeyAt hdep, hkeyAt hkey]
    exact hdeclares

/-- In every order in which the maps are iterated there is a graph exactly when what the pipeline declares has no
cycle, and then it is the declared graph. -/
theorem buildPipelineGraph_exact (config : PipelineConfig) (packageTasks : Multimap String Task)
    (packageDeps : Multimap String String) (taskOrder : HashOrder (Σ _ : String, List Task))
    (registryOrder : HashOrder (Σ _ : TaskKey, NodeId)) :
    ((∃ g, buildPipelineGraph config packageTasks packageDeps taskOrder registryOrder = .ok g) ↔
        Acyclic (Declares config packageTasks packageDeps)) ∧
      ∀ g, buildPipelineGraph config packageTasks packageDeps taskOrder registryOrder = .ok g →
        ∃ entries, DeclaredGraph config packageTasks packageDeps entries g := by
  have h := Registered.new.foldl (Multimap.pairsOf (taskOrder.order packageTasks.entries))
  have hexists := @exists_iff packageTasks taskOrder
  rw [List.nil_append] at h
  unfold buildPipelineGraph
  revert h hexists
  have hpackages := filter_order packageTasks taskOrder
  revert hpackages
  generalize Multimap.pairsOf (taskOrder.order packageTasks.entries) = entries
  generalize entries.foldl register (BuildGraph.new, ∅) = state
  intro hpackages h hexists
  have hrequests := @mem_requests_iff config packageTasks packageDeps registryOrder entries state h hexists
  have hrange : ∀ edge ∈ (registryOrder.order state.2.entries).flatMap (taskRequests config packageDeps state.2),
      edge.1 < state.1.len ∧ edge.2 < state.1.len := by
    intro edge hedge
    obtain ⟨dep, key, hdep, hkey, -⟩ := (hrequests edge.1 edge.2).mp hedge
    rw [h.len_eq]
    exact ⟨hdep.lt, hkey.lt⟩
  have hacyclic : (Acyclic fun a b => state.1.Edge a b ∨
      (a, b) ∈ (registryOrder.order state.2.entries).flatMap (taskRequests config packageDeps state.2)) ↔
      Acyclic (Declares config packageTasks packageDeps) := by
    simp only [h.noEdge, false_or, hrequests]
    exact acyclic_lastOf_iff fun dep key hdep => ⟨(hexists dep).mp hdep.1, (hexists key).mp hdep.2.1⟩
  refine ⟨(h.wellFormed.requestEdges_ok_iff hrange).trans hacyclic, fun g hok => ⟨entries, ?_, hpackages, fun a b => ?_⟩⟩
  · rw [(h.wellFormed.requestEdges_adds hok).nodes, h.payloads]
  · rw [(h.wellFormed.requestEdges_adds hok).edge_iff, or_iff_right (h.noEdge a b), hrequests]

end Edges

end Forge.Cli.Pipeline
