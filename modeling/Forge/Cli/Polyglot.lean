import Forge.Backend.RustTasks
import Forge.Common.Multimaps
import Forge.Graph.Unions

/-!
# The graph of a workspace in several languages

Every ecosystem that was detected has a sub-graph of its own. They are merged one after the
other, and what builds images waits for everything else. An ecosystem whose sub-graph cannot be
made is left out without an error, and so is every Cargo workspace after the first.
-/

namespace Forge.Cli

open Forge.Common Forge.Graph Forge.Graph.BuildGraph Forge.Project
open Forge.Backend.Rust (BuildMode)

/-- The ecosystems. -/
inductive EcosystemType where
  | rust
  | typeScript
  | go
  | python
  | java
  | dotNet
  | cpp
  | swift
  | dart
  | zig
  | docker
  | generic
  deriving DecidableEq, Repr

/-- An ecosystem that was detected. -/
structure EcosystemInfo where
  ecosystem : EcosystemType
  manifestPath : PathBuf
  lockfilePath : Option PathBuf
  packageName : Option String
  deriving DecidableEq, Repr

/-- What is found from a directory on: the ecosystems that are detected, whether the directory has a
`Cargo.toml`, what the backends make of an ecosystem in a directory, and what the Rust backend makes of
the project of the directory, if there is one. -/
structure Surroundings (T : Type*) where
  startDir : PathBuf
  ecosystems : List EcosystemInfo
  cargoToml : Bool
  buildSubgraph : EcosystemInfo → PathBuf → BuildMode → Except String {g : BuildGraph T // g.Built}
  project : BuildMode → Option (Except String (BuildGraph T))

/-- The orders in which hash maps give what they hold. -/
structure MapOrder where
  values : List (NodeId × NodeId) → List NodeId
  values_perm : ∀ idMap, (values idMap).Perm (idMap.map Prod.snd)
  entries : Multimap EcosystemType NodeId → List (Σ _ : EcosystemType, List NodeId)
  entries_perm : ∀ nodeMap, (entries nodeMap).Perm nodeMap.entries

/-- What was merged so far, the nodes of each ecosystem, and whether a Cargo workspace was. -/
structure Unifying (T : Type*) where
  masterGraph : BuildGraph T
  ecosystemNodeMap : Multimap EcosystemType NodeId
  processedRust : Bool

/-- The edges from the nodes of all other ecosystems to those that build images. -/
def dockerEdges (order : MapOrder) (nodeMap : Multimap EcosystemType NodeId) : List (NodeId × NodeId) :=
  match nodeMap.lookup .docker with
  | none => []
  | some dockerNodes =>
    (order.entries nodeMap).flatMap fun entry =>
      if entry.1 ≠ .docker then entry.2.flatMap fun dep => dockerNodes.map fun dockerNode => (dep, dockerNode)
      else []

namespace Surroundings

variable {T : Type*} (s : Surroundings T) (order : MapOrder) (mode : BuildMode)

/-- The directory in which an ecosystem is built. -/
def manifestDir (info : EcosystemInfo) : PathBuf :=
  if info.ecosystem = .rust ∧ s.cargoToml = true then s.startDir
  else (parent info.manifestPath).getD s.startDir

/-- Merge the sub-graph of one more ecosystem. No result means a panic. -/
def addEcosystem (state : Unifying T) (info : EcosystemInfo) : Option (Unifying T) :=
  if info.ecosystem = .rust ∧ state.processedRust = true then some state
  else
    let processedRust := state.processedRust || decide (info.ecosystem = .rust)
    match s.buildSubgraph info (s.manifestDir info) mode with
    | .error _ => some { state with processedRust }
    | .ok subGraph =>
      if subGraph.val.len = 0 then some { state with processedRust }
      else
        (state.masterGraph.mergeSubgraph subGraph.val).map fun (idMap, masterGraph) =>
          { masterGraph
            ecosystemNodeMap := state.ecosystemNodeMap.extend info.ecosystem (order.values idMap)
            processedRust }

/-- The graph of all ecosystems, or that of the project when there is nothing else. -/
def buildUnifiedGraph : Option (Except String (BuildGraph T)) :=
  if s.ecosystems.isEmpty then
    match s.project mode with
    | some result => some result
    | none => some (.error ("No supported build ecosystem detected in `" ++ pathString s.startDir ++ "`"))
  else
    (s.ecosystems.foldlM (s.addEcosystem order mode) ⟨BuildGraph.new, ∅, false⟩).map fun state =>
      let masterGraph := addEdges (dockerEdges order state.ecosystemNodeMap) state.masterGraph
      if masterGraph.len = 0 then (s.project mode).getD (.ok masterGraph) else .ok masterGraph

/-! ## What the graph should be -/

/-- What the backends make of an ecosystem. -/
def subgraph (info : EcosystemInfo) : Except String (BuildGraph T) :=
  (s.buildSubgraph info (s.manifestDir info) mode).map Subtype.val

/-- What the backends make of several ecosystems. -/
def outcomes (infos : List EcosystemInfo) : List (EcosystemType × Except String (BuildGraph T)) :=
  infos.map fun info => (info.ecosystem, s.subgraph mode info)

/-- The ecosystems whose sub-graphs are asked for: of the Cargo workspaces only the first. -/
def handled : Bool → List EcosystemInfo → List EcosystemInfo
  | _, [] => []
  | processedRust, info :: infos =>
    if info.ecosystem = .rust ∧ processedRust = true then handled processedRust infos
    else info :: handled (processedRust || decide (info.ecosystem = .rust)) infos

/-- The ecosystems that are passed over: the Cargo workspaces after the first. -/
def passedOver : Bool → List EcosystemInfo → List EcosystemInfo
  | _, [] => []
  | processedRust, info :: infos =>
    if info.ecosystem = .rust ∧ processedRust = true then info :: passedOver processedRust infos
    else passedOver (processedRust || decide (info.ecosystem = .rust)) infos

/-- The project is built instead of the ecosystems: no sub-graph that is asked for has a node, and there
is a project. -/
def FallsBack : Prop :=
  (∀ info ∈ handled false s.ecosystems, ∀ g, s.subgraph mode info = .ok g → g.len = 0) ∧ s.project mode ≠ none

/-- A sub-graph cannot be made. -/
def SomeFail : Prop :=
  ∃ info ∈ s.ecosystems, ∃ e, s.subgraph mode info = .error e

/-- A result is complete: a graph of ecosystems has the sub-graphs of all of them side by side, with one
edge from every node to every one that builds an image, and there is none when a sub-graph cannot be
made. -/
structure Complete (result : Except String (BuildGraph T)) : Prop where
  all : ∀ g, result = .ok g → s.ecosystems ≠ [] → ¬ s.FallsBack mode →
    ∃ parts : List (EcosystemType × BuildGraph T),
      s.outcomes mode s.ecosystems = parts.map (fun part => (part.1, .ok part.2)) ∧
        UnionInto parts (fun ecosystem => decide (ecosystem = .docker)) g
  fails : s.SomeFail mode → ∃ e, result = .error e

/-! ## What is merged -/

/-- The sub-graphs that were made and have nodes. -/
def madeParts (outcomes : List (EcosystemType × Except String (BuildGraph T))) : List (EcosystemType × BuildGraph T) :=
  outcomes.filterMap fun outcome =>
    match outcome.2 with
    | .ok g => if g.len = 0 then none else some (outcome.1, g)
    | .error _ => none

/-- The nodes of several sub-graphs were merged behind those that were there. -/
structure Merged (state state' : Unifying T) (parts : List (EcosystemType × BuildGraph T)) : Prop where
  wellFormed : state'.masterGraph.WellFormed
  keeps : state.masterGraph.Keeps state'.masterGraph
  len : state'.masterGraph.len = state.masterGraph.len + totalLen parts
  copies : state'.masterGraph.Copies state.masterGraph.len parts
  pairs : state'.ecosystemNodeMap.pairs.Perm
    (state.ecosystemNodeMap.pairs ++ labelled state.masterGraph.len parts)
  parts : ∀ part ∈ parts, part.2.WellFormed

variable {s order mode}

/-- What is made of one more ecosystem comes first, if it is anything. -/
theorem madeParts_cons (info : EcosystemInfo) (infos : List EcosystemInfo) :
    madeParts (s.outcomes mode (info :: infos)) =
      (match s.subgraph mode info with
        | .ok g => if g.len = 0 then [] else [(info.ecosystem, g)]
        | .error _ => []) ++ madeParts (s.outcomes mode infos) := by
  rw [madeParts, outcomes, List.map_cons, List.filterMap_cons, ← outcomes, ← madeParts]
  cases s.subgraph mode info with
  | error _ => rfl
  | ok g =>
    by_cases hempty : g.len = 0
    · simp only [hempty, if_true, List.nil_append]
    · simp only [hempty, if_false, List.singleton_append]

/-- Nothing is merged by doing nothing. -/
theorem Merged.refl {state : Unifying T} (hwf : state.masterGraph.WellFormed) (processedRust : Bool) :
    Merged state { state with processedRust } [] :=
  ⟨hwf, .refl _, rfl, trivial, .of_eq (List.append_nil _).symm, nofun⟩

/-- Merging some sub-graphs and then others merges them all. -/
theorem Merged.trans {state next state' : Unifying T} {parts more : List (EcosystemType × BuildGraph T)}
    (h : Merged state next parts) (h' : Merged next state' more) : Merged state state' (parts ++ more) where
  wellFormed := h'.wellFormed
  keeps := h.keeps.trans h'.keeps
  len := by rw [h'.len, h.len, totalLen_append, Nat.add_assoc]
  copies := by
    rw [copies_append, ← h.len]
    exact ⟨h.copies.keeps h'.keeps h.len.ge, h'.copies⟩
  pairs := by
    rw [labelled_append, ← List.append_assoc, ← h.len]
    exact h'.pairs.trans (h.pairs.append_right _)
  parts := fun part hmem => (List.mem_append.mp hmem).elim (h.parts part) (h'.parts part)

/-- The first of several ecosystems is asked for its sub-graph unless it is a later Cargo workspace. -/
theorem handled_cons (processedRust : Bool) (info : EcosystemInfo) (infos : List EcosystemInfo) :
    handled processedRust (info :: infos) =
      (if info.ecosystem = .rust ∧ processedRust = true then [] else [info]) ++
        handled (processedRust || decide (info.ecosystem = .rust)) infos := by
  rw [handled]
  by_cases hlater : info.ecosystem = .rust ∧ processedRust = true
  · rw [if_pos hlater, if_pos hlater, hlater.2]
    rfl
  · rw [if_neg hlater, if_neg hlater]
    rfl

/-- What is made of several ecosystems. -/
theorem madeParts_append (infos more : List EcosystemInfo) :
    madeParts (s.outcomes mode (infos ++ more)) = madeParts (s.outcomes mode infos) ++ madeParts (s.outcomes mode more) := by
  rw [madeParts, outcomes, List.map_append, List.filterMap_append]
  rfl

/-- A sub-graph is merged if it is asked for, made and has nodes. -/
theorem addEcosystem_spec {state : Unifying T} (hwf : state.masterGraph.WellFormed) (info : EcosystemInfo) :
    ∃ next, s.addEcosystem order mode state info = some next ∧
      next.processedRust = (state.processedRust || decide (info.ecosystem = .rust)) ∧
      Merged state next (madeParts (s.outcomes mode
        (if info.ecosystem = .rust ∧ state.processedRust = true then [] else [info]))) := by
  rw [addEcosystem]
  by_cases hlater : info.ecosystem = .rust ∧ state.processedRust = true
  · rw [if_pos hlater, if_pos hlater, hlater.2]
    exact ⟨state, rfl, hlater.2, .refl hwf state.processedRust⟩
  rw [if_neg hlater, if_neg hlater]
  simp only [madeParts, outcomes, List.map_cons, List.map_nil, List.filterMap_cons, List.filterMap_nil, subgraph]
  cases s.buildSubgraph info (s.manifestDir info) mode with
  | error e => exact ⟨_, rfl, rfl, .refl hwf _⟩
  | ok subGraph =>
    simp only [Except.map]
    by_cases hempty : subGraph.val.len = 0
    · rw [if_pos hempty, if_pos hempty]
      exact ⟨_, rfl, rfl, .refl hwf _⟩
    · obtain ⟨masterGraph, hmerge, hwf', hunion, -⟩ := hwf.mergeSubgraph_union subGraph.property.wellFormed
      rw [if_neg hempty, if_neg hempty, hmerge, Option.map_some]
      refine ⟨_, rfl, rfl, hwf', hunion.keeps, ?_, ⟨hunion.copiedAt, trivial⟩, ?_, ?_⟩
      · rw [hunion.len, totalLen_cons]
        rfl
      · refine (Multimap.pairs_extend _ _ _).trans (List.Perm.append_left _ ?_)
        have hids : ((List.range subGraph.val.len).map fun i => (i, state.masterGraph.len + i)).map Prod.snd =
            List.range' state.masterGraph.len subGraph.val.len := by
          rw [List.map_map, List.range'_eq_map_range]
          rfl
        have hvalues := order.values_perm ((List.range subGraph.val.len).map fun i => (i, state.masterGraph.len + i))
        rw [hids] at hvalues
        rw [labelled, labelled, List.append_nil]
        exact hvalues.map _
      · exact List.forall_mem_singleton.mpr subGraph.property.wellFormed

/-- All sub-graphs that are asked for, made and have nodes are merged. -/
theorem foldlM_addEcosystem (infos : List EcosystemInfo) {state : Unifying T} (hwf : state.masterGraph.WellFormed) :
    ∃ state', infos.foldlM (s.addEcosystem order mode) state = some state' ∧
      Merged state state' (madeParts (s.outcomes mode (handled state.processedRust infos))) := by
  induction infos generalizing state with
  | nil => exact ⟨state, rfl, .refl hwf state.processedRust⟩
  | cons info infos ih =>
    obtain ⟨next, hnext, hprocessed, hmerged⟩ := @addEcosystem_spec T s order mode state hwf info
    obtain ⟨state', hrun, hrest⟩ := ih hmerged.wellFormed
    rw [handled_cons, madeParts_append, ← hprocessed]
    refine ⟨state', ?_, hmerged.trans hrest⟩
    rw [List.foldlM_cons, hnext, Option.bind_eq_bind, Option.bind_some, hrun]

/-- The nodes of the entries of a map with certain keys are those of its pairs. -/
theorem nodes_of_entries (entries : List (Σ _ : EcosystemType, List NodeId)) (p : EcosystemType → Bool) :
    ((Multimap.pairsOf entries).filter fun pair => p pair.1).map Prod.snd =
      entries.flatMap fun entry => if p entry.1 = true then entry.2 else [] := by
  induction entries with
  | nil => rfl
  | cons entry entries ih =>
    obtain ⟨ecosystem, nodes⟩ := entry
    rw [Multimap.pairsOf_cons, List.filter_append, List.map_append, ih, List.flatMap_cons, List.filter_map, List.map_map]
    congr 1
    cases hp : p ecosystem <;> simp [Function.comp_def, hp]

/-- There is one edge from every node of another ecosystem to every one that builds an image. -/
theorem dockerEdges_perm {nodeMap : Multimap EcosystemType NodeId} {parts : List (EcosystemType × BuildGraph T)}
    (hpairs : nodeMap.pairs.Perm (labelled 0 parts)) :
    (dockerEdges order nodeMap).Perm ((nodesLabelled parts fun ecosystem => !decide (ecosystem = .docker)).product
      (nodesLabelled parts fun ecosystem => decide (ecosystem = .docker))) := by
  have hdocker : ((nodeMap.lookup .docker).getD []).Perm
      (nodesLabelled parts fun ecosystem => decide (ecosystem = .docker)) :=
    (nodeMap.lookup_perm .docker).trans ((hpairs.filter _).map _)
  rw [dockerEdges]
  cases hlookup : nodeMap.lookup .docker with
  | none =>
    rw [hlookup, Option.getD_none] at hdocker
    rw [List.nil_perm.mp hdocker]
    exact .of_eq (List.product_nil _).symm
  | some dockerNodes =>
    rw [hlookup, Option.getD_some] at hdocker
    have hothers : ((order.entries nodeMap).flatMap fun entry => if !decide (entry.1 = .docker) then entry.2 else []).Perm
        (nodesLabelled parts fun ecosystem => !decide (ecosystem = .docker)) := by
      rw [← nodes_of_entries _ fun ecosystem => !decide (ecosystem = .docker)]
      exact (((Multimap.pairsOf_perm (order.entries_perm nodeMap)).trans hpairs).filter _).map _
    have hedges : ((order.entries nodeMap).flatMap fun entry =>
          if entry.1 ≠ .docker then entry.2.flatMap fun dep => dockerNodes.map fun dockerNode => (dep, dockerNode)
          else []) =
        ((order.entries nodeMap).flatMap fun entry => if !decide (entry.1 = .docker) then entry.2 else []).product
          dockerNodes := by
      rw [List.product, List.flatMap_assoc]
      refine List.flatMap_congr fun entry _ => ?_
      by_cases hdocker : entry.1 = .docker <;> simp [hdocker]
    simp only [hedges]
    exact hothers.product hdocker

/-! ## When the graph is complete -/

/-- How many nodes an ecosystem has. -/
def size (s : Surroundings T) (mode : BuildMode) (info : EcosystemInfo) : ℕ :=
  match s.subgraph mode info with
  | .ok g => g.len
  | .error _ => 0

/-- The graph of detected ecosystems has the sub-graphs that are asked for, made and have nodes, and the
edges to those that build images. Without nodes it is the graph of the project, if there is one. -/
theorem buildUnifiedGraph_eq (hdetected : s.ecosystems ≠ []) :
    ∃ g, UnionInto (madeParts (s.outcomes mode (handled false s.ecosystems)))
        (fun ecosystem => decide (ecosystem = .docker)) g ∧
      s.buildUnifiedGraph order mode =
        some (if g.len = 0 then (s.project mode).getD (.ok g) else .ok g) := by
  obtain ⟨state, hrun, hmerged⟩ :=
    @foldlM_addEcosystem T s order mode s.ecosystems ⟨BuildGraph.new, ∅, false⟩ WellFormed.new
  have hlen := hmerged.len
  rw [show (BuildGraph.new : BuildGraph T).len = 0 from rfl, Nat.zero_add] at hlen
  have hpairs : state.ecosystemNodeMap.pairs.Perm (labelled 0 (madeParts (s.outcomes mode (handled false s.ecosystems)))) :=
    hmerged.pairs
  refine ⟨addEdges (dockerEdges order state.ecosystemNodeMap) state.masterGraph,
    hmerged.copies.unionInto hmerged.wellFormed hlen hmerged.parts _ (dockerEdges_perm hpairs), ?_⟩
  rw [buildUnifiedGraph, if_neg (by rw [List.isEmpty_iff]; exact hdetected), hrun, Option.map_some]

/-- The sub-graphs that were made have the nodes of the ecosystems. -/
theorem totalLen_madeParts (infos : List EcosystemInfo) :
    totalLen (madeParts (s.outcomes mode infos)) = (infos.map (s.size mode)).sum := by
  induction infos with
  | nil => rfl
  | cons info infos ih =>
    rw [madeParts_cons, totalLen_append, ih, List.map_cons, List.sum_cons, size]
    congr 1
    cases s.subgraph mode info with
    | error _ => rfl
    | ok g =>
      by_cases hempty : g.len = 0
      · simp only [hempty, if_true]
        rfl
      · simp only [hempty, if_false]
        rw [totalLen_cons]
        rfl

/-- Every ecosystem is either asked for its sub-graph or passed over. -/
theorem handled_append_passedOver (processedRust : Bool) (infos : List EcosystemInfo) :
    (handled processedRust infos ++ passedOver processedRust infos).Perm infos := by
  induction infos generalizing processedRust with
  | nil => exact .nil
  | cons info infos ih =>
    rw [handled, passedOver]
    by_cases hlater : info.ecosystem = .rust ∧ processedRust = true
    · rw [if_pos hlater, if_pos hlater]
      exact List.perm_middle.trans ((ih processedRust).cons info)
    · rw [if_neg hlater, if_neg hlater]
      exact (ih _).cons info

/-- An ecosystem has no nodes exactly when its sub-graph has none, if it is made. -/
theorem size_eq_zero_iff {info : EcosystemInfo} :
    s.size mode info = 0 ↔ ∀ g, s.subgraph mode info = .ok g → g.len = 0 := by
  rw [size]
  cases s.subgraph mode info with
  | error _ => exact ⟨fun _ => nofun, fun _ => rfl⟩
  | ok g => exact ⟨fun h g' hg' => Except.ok.inj hg' ▸ h, fun h => h g rfl⟩

/-- The nodes of all ecosystems are those of the ones that are asked and those of the ones passed over. -/
theorem sum_size (infos : List EcosystemInfo) :
    (infos.map (s.size mode)).sum =
      ((handled false infos).map (s.size mode)).sum + ((passedOver false infos).map (s.size mode)).sum := by
  rw [← List.sum_append, ← List.map_append]
  exact (((handled_append_passedOver false infos).map _).sum_eq).symm

/-- If none is passed over that has nodes, the ecosystems that are asked make what all make. -/
theorem madeParts_handled {processedRust : Bool} {infos : List EcosystemInfo}
    (h : ∀ info ∈ passedOver processedRust infos, s.size mode info = 0) :
    madeParts (s.outcomes mode (handled processedRust infos)) = madeParts (s.outcomes mode infos) := by
  induction infos generalizing processedRust with
  | nil => rfl
  | cons info infos ih =>
    rw [passedOver] at h
    rw [handled]
    by_cases hlater : info.ecosystem = .rust ∧ processedRust = true
    · rw [if_pos hlater] at h ⊢
      obtain ⟨hempty, hrest⟩ := List.forall_mem_cons.mp h
      rw [ih hrest, madeParts_cons]
      rw [size] at hempty
      cases hmade : s.subgraph mode info with
      | error _ => rfl
      | ok g =>
        rw [hmade] at hempty
        simp only [if_pos hempty, List.nil_append]
    · rw [if_neg hlater] at h ⊢
      rw [madeParts_cons, madeParts_cons, ih h]

/-- When all sub-graphs are made, those with nodes are the ones that have some. -/
theorem madeParts_eq_withNodes {outcomes : List (EcosystemType × Except String (BuildGraph T))}
    {parts : List (EcosystemType × BuildGraph T)} (h : outcomes = parts.map fun part => (part.1, .ok part.2)) :
    madeParts outcomes = withNodes parts := by
  rw [h, madeParts, List.filterMap_map]
  induction parts generalizing outcomes with
  | nil => rfl
  | cons part parts ih =>
    obtain ⟨ecosystem, g⟩ := part
    rw [List.filterMap_cons, ih rfl, withNodes_cons, Function.comp_apply]
    by_cases hempty : g.len = 0
    · simp only [if_pos hempty]
    · simp only [if_neg hempty]

/-- Several ecosystems have no nodes exactly when none of them has any. -/
theorem sum_size_eq_zero_iff {infos : List EcosystemInfo} :
    (infos.map (s.size mode)).sum = 0 ↔ ∀ info ∈ infos, ∀ g, s.subgraph mode info = .ok g → g.len = 0 := by
  rw [List.sum_eq_zero_iff, List.forall_mem_map]
  exact forall₂_congr fun info _ => size_eq_zero_iff

/-- The project is built exactly when there is one and the graph of the ecosystems has no nodes. -/
theorem fallsBack_iff {g : BuildGraph T}
    (hunion : UnionInto (madeParts (s.outcomes mode (handled false s.ecosystems)))
      (fun ecosystem => decide (ecosystem = .docker)) g) :
    s.FallsBack mode ↔ g.len = 0 ∧ s.project mode ≠ none := by
  rw [FallsBack, hunion.len, totalLen_madeParts, sum_size_eq_zero_iff]

/-- When no sub-graph fails, each ecosystem has one. -/
theorem exists_parts (hmade : ¬ s.SomeFail mode) :
    ∃ parts : List (EcosystemType × BuildGraph T),
      s.outcomes mode s.ecosystems = parts.map fun part => (part.1, .ok part.2) := by
  have hok : ∀ info ∈ s.ecosystems, ∃ g, s.subgraph mode info = .ok g := by
    intro info hmem
    cases hsubgraph : s.subgraph mode info with
    | ok g => exact ⟨g, rfl⟩
    | error e => exact absurd ⟨info, hmem, e, hsubgraph⟩ hmade
  rw [outcomes]
  generalize s.ecosystems = infos at hok
  induction infos with
  | nil => exact ⟨[], rfl⟩
  | cons info infos ih =>
    obtain ⟨⟨g, hg⟩, hrest⟩ := List.forall_mem_cons.mp hok
    obtain ⟨parts, hparts⟩ := ih hrest
    exact ⟨(info.ecosystem, g) :: parts, by rw [List.map_cons, List.map_cons, hg, hparts]⟩

/-- The graph of the ecosystems is complete exactly when no sub-graph fails and none that is passed over has
nodes. -/
theorem complete_ok_iff (hdetected : s.ecosystems ≠ []) (hkept : ¬ s.FallsBack mode) {g : BuildGraph T}
    (hunion : UnionInto (madeParts (s.outcomes mode (handled false s.ecosystems)))
      (fun ecosystem => decide (ecosystem = .docker)) g) :
    s.Complete mode (.ok g) ↔ ¬ s.SomeFail mode ∧
      ∀ info ∈ passedOver false s.ecosystems, ∀ g, s.subgraph mode info = .ok g → g.len = 0 := by
  constructor
  · intro h
    refine ⟨fun hfail => ?_, ?_⟩
    · obtain ⟨e, he⟩ := h.fails hfail
      exact absurd he nofun
    · obtain ⟨parts, hparts, hall⟩ := h.all g rfl hdetected hkept
      have hmade : totalLen (madeParts (s.outcomes mode s.ecosystems)) = totalLen parts := by
        rw [madeParts_eq_withNodes hparts, totalLen_withNodes]
      rw [← hall.len, hunion.len, totalLen_madeParts, totalLen_madeParts, sum_size] at hmade
      exact sum_size_eq_zero_iff.mp (by omega)
  · rintro ⟨hmade, hpassed⟩
    obtain ⟨parts, hparts⟩ := exists_parts hmade
    refine ⟨fun g' hg' _ _ => ⟨parts, hparts, ?_⟩, fun hfail => absurd hfail hmade⟩
    rw [← Except.ok.inj hg', ← unionInto_withNodes, ← madeParts_eq_withNodes hparts,
      ← madeParts_handled fun info hmem => size_eq_zero_iff.mpr (hpassed info hmem)]
    exact hunion

/-- The result is complete exactly when, if the project is built instead of the ecosystems, no sub-graph
fails or the project does, and otherwise no sub-graph fails and no Cargo workspace after the first has
nodes. -/
theorem buildUnifiedGraph_complete_iff (s : Surroundings T) (order : MapOrder) (mode : BuildMode) :
    ∃ result, s.buildUnifiedGraph order mode = some result ∧
      (s.Complete mode result ↔
        (s.FallsBack mode → ¬ s.SomeFail mode ∨ ∃ e, s.project mode = some (.error e)) ∧
        (¬ s.FallsBack mode → ¬ s.SomeFail mode ∧
          ∀ info ∈ passedOver false s.ecosystems, ∀ g, s.subgraph mode info = .ok g → g.len = 0)) := by
  by_cases hdetected : s.ecosystems = []
  · have hmade : ¬ s.SomeFail mode := fun ⟨info, hmem, _⟩ => absurd (hdetected ▸ hmem) List.not_mem_nil
    have hpassed : ∀ info ∈ passedOver false s.ecosystems, ∀ g, s.subgraph mode info = .ok g → g.len = 0 := by
      rw [hdetected]
      exact nofun
    obtain ⟨result, hresult⟩ : ∃ result, s.buildUnifiedGraph order mode = some result := by
      rw [buildUnifiedGraph, hdetected]
      cases s.project mode with
      | none => exact ⟨_, rfl⟩
      | some result => exact ⟨result, rfl⟩
    exact ⟨result, hresult, iff_of_true ⟨fun _ _ hne => absurd hdetected hne, fun hfail => absurd hfail hmade⟩
      ⟨fun _ => Or.inl hmade, fun _ => ⟨hmade, hpassed⟩⟩⟩
  · obtain ⟨g, hunion, heq⟩ := @buildUnifiedGraph_eq T s order mode hdetected
    refine ⟨_, heq, ?_⟩
    by_cases hback : s.FallsBack mode
    · obtain ⟨hempty, hproject⟩ := (fallsBack_iff hunion).mp hback
      obtain ⟨result, hresult⟩ := Option.ne_none_iff_exists'.mp hproject
      rw [if_pos hempty, hresult, Option.getD_some]
      constructor
      · intro h
        refine ⟨fun _ => ?_, fun hkept => absurd hback hkept⟩
        by_cases hfail : s.SomeFail mode
        · obtain ⟨e, rfl⟩ := h.fails hfail
          exact Or.inr ⟨e, rfl⟩
        · exact Or.inl hfail
      · rintro ⟨hor, -⟩
        refine ⟨fun _ _ _ hkept => absurd hback hkept, fun hfail => ?_⟩
        obtain ⟨e, he⟩ := (hor hback).resolve_left (fun hmade => hmade hfail)
        exact ⟨e, Option.some.inj he⟩
    · have hresult : (if g.len = 0 then (s.project mode).getD (.ok g) else .ok g) = (.ok g : Except String (BuildGraph T)) := by
        by_cases hempty : g.len = 0
        · have hproject : s.project mode = none := by
            by_contra hsome
            exact hback ((fallsBack_iff hunion).mpr ⟨hempty, hsome⟩)
          rw [if_pos hempty, hproject, Option.getD_none]
        · rw [if_neg hempty]
      rw [hresult, complete_ok_iff hdetected hback hunion]
      exact ⟨fun h => ⟨fun h' => absurd h' hback, fun _ => h⟩, fun h => h.2 hback⟩

/-- A Go module whose configuration cannot be read next to a TypeScript project. -/
def goAndTypeScript : Surroundings String where
  startDir := ["repo"]
  ecosystems := [
    ⟨.go, ["repo", "api", "go.mod"], none, none⟩,
    ⟨.typeScript, ["repo", "web", "package.json"], none, none⟩]
  cargoToml := false
  buildSubgraph := fun info _ _ =>
    match info.ecosystem with
    | .typeScript => .ok ⟨(BuildGraph.new.addNode "web:build").2, Built.new.addNode "web:build"⟩
    | _ => .error "expected value at line 1 column 1"
  project := fun _ => none

/-- Hash maps that give what they hold in the order in which they keep it. -/
def keptOrder : MapOrder :=
  ⟨fun idMap => idMap.map Prod.snd, fun _ => .refl _, fun nodeMap => nodeMap.entries, fun _ => .refl _⟩

/-- The Go module is left out without an error. -/
theorem not_complete_goAndTypeScript :
    ¬ ∀ (s : Surroundings String) (order : MapOrder) (mode : BuildMode) (result : Except String (BuildGraph String)),
      s.buildUnifiedGraph order mode = some result → s.Complete mode result := by
  intro h
  have hresult : goAndTypeScript.buildUnifiedGraph keptOrder .build =
      some (.ok (BuildGraph.new.addNode "web:build").2) := by rfl
  have hcomplete := h goAndTypeScript keptOrder .build _ hresult
  obtain ⟨e, he⟩ := hcomplete.fails ⟨_, List.mem_cons_self, "expected value at line 1 column 1", rfl⟩
  exact absurd he nofun

end Surroundings

end Forge.Cli
