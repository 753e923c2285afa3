import Forge.Backend.Identity
import Forge.Graph.Merging
import Mathlib.Data.List.AList

/-!
# The task graph of a manifest of rules

Rules are taken in rounds: a round takes all rules that were not taken before and whose
dependencies were, and rules are known by their names. The rounds end when there are as many
names as rules, or with an error when there is nothing to take. The edges are added at the
end, from the nodes of the dependencies, which the names lead to.
-/

namespace Forge.Plugin

open Relation Forge.Common Forge.Graph Forge.Graph.BuildGraph Forge.Fingerprint Forge.Executor Forge.Backend

/-- A rule of a manifest. -/
structure RuleSpec where
  name : String
  command : String
  args : List String
  inputs : List String
  outputs : List String
  dependsOn : List String
  env : StringMap
deriving DecidableEq

/-- A manifest of rules. -/
structure PluginRulesManifest where
  name : String
  rules : List RuleSpec
deriving DecidableEq

/-- What input patterns lead to when they are joined to the root, and whether something cannot be read there. -/
structure PluginFiles where
  target : String → Tree
  unreadable : String → Bool

/-- Why there is no graph. -/
inductive PluginError where
  | manifest (message : String)
  | io
  | graph (error : GraphError)
deriving DecidableEq

/-- How building a graph ends: it returns, an index is out of range, or the rounds do not end. -/
inductive BuildOutcome (α : Type*) where
  | returned (result : Except PluginError α)
  | panicked
  | unfinished

/-! ## Fingerprints -/

mutual

/-- What is fed to the hasher for the entries of a directory. What is no directory has none. -/
def hashDirSimple : Tree → Bytes
  | .dir entries => (sortByName (hashEntries entries)).flatMap (·.2)
  | .file _ => []
  | .other => []

/-- What is fed to the hasher for each entry of a directory. -/
def hashEntries : Entries → List (OsString × Bytes)
  | .nil => []
  | .cons name tree entries =>
    (name,
      match tree with
      | .dir below => hashDirSimple (.dir below)
      | .file content => toStringLossy name ++ content
      | .other => []) :: hashEntries entries

end

/-- What is fed to the hasher for what an input pattern leads to. -/
def hashInput : Tree → Bytes
  | .file content => content
  | .dir entries => hashDirSimple (.dir entries)
  | .other => []

/-- What is fed to the hasher for the input patterns of a rule. -/
def hashInputs (files : PluginFiles) (inputs : List String) : Bytes :=
  if inputs = [] then utf8Bytes "all_sources" else inputs.flatMap fun pattern => hashInput (files.target pattern)

/-- What is hashed for a rule alone. -/
def ruleText (files : PluginFiles) (rule : RuleSpec) : Bytes :=
  utf8Bytes rule.name ++ utf8Bytes rule.command ++ rule.args.flatMap utf8Bytes ++
    rule.env.entries.flatMap (fun entry => utf8Bytes entry.1 ++ utf8Bytes entry.2) ++ hashInputs files rule.inputs

/-- The fingerprint of a rule alone, none if an input cannot be read. -/
def computeRuleFingerprint (hash : Bytes → String) (files : PluginFiles) (rule : RuleSpec) : Option String :=
  if rule.inputs.any files.unreadable then none else some (hash (ruleText files rule))

/-- The fingerprint of a rule with those of its dependencies, in any order. -/
def combineRuleFingerprints (hash : Bytes → String) (baseFp : String) (memberFps : List String) : String :=
  hash (utf8Bytes baseFp ++ (sortStrings memberFps).flatMap utf8Bytes)

/-! ## Tasks -/

/-- The namespace of the root. -/
def namespaceOf (hash : Bytes → String) (root : String) : String :=
  String.ofList ((hash (utf8Bytes root)).toList.take 12)

/-- The command of a rule. -/
def ruleCommand (root : String) (rule : RuleSpec) : CommandSpec :=
  { CommandSpec.new rule.command with args := rule.args, env := rule.env.entries, cwd := some root }

/-- The label of a rule in a manifest. -/
def ruleLabel (manifest : PluginRulesManifest) (rule : RuleSpec) : String :=
  if manifest.name = "" then rule.name else manifest.name ++ ":" ++ rule.name

/-- The key of a rule. -/
def ruleKey (hash : Bytes → String) (root : String) (rule : RuleSpec) : String :=
  "plugin/" ++ namespaceOf hash root ++ "/" ++ rule.name

/-- The task of a rule with a fingerprint. -/
def ruleTask (hash : Bytes → String) (manifest : PluginRulesManifest) (root : String) (rule : RuleSpec)
    (fingerprint : String) : Task :=
  { Task.new (ruleLabel manifest rule) (ruleCommand root rule).commandLine (ruleCommand root rule) with
    cache := some ⟨ruleKey hash root rule, fingerprint⟩ }

/-! ## The rounds -/

/-- The graph so far, with the nodes and the fingerprints of the rules by their names. -/
structure PluginState where
  graph : BuildGraph Task
  nodeMap : AList fun _ : String => NodeId
  depFps : AList fun _ : String => String

/-- No rule was taken. -/
def PluginState.new : PluginState := ⟨BuildGraph.new, ∅, ∅⟩

/-- The fingerprints of the dependencies of a rule. -/
def memberFps (depFps : AList fun _ : String => String) (rule : RuleSpec) :
    List String → Except PluginError (List String)
  | [] => .ok []
  | dep :: deps =>
    match depFps.lookup dep with
    | none => .error (.manifest ("rule `" ++ rule.name ++ "` depends on unknown rule `" ++ dep ++ "`"))
    | some fp => (memberFps depFps rule deps).map (fp :: ·)

section Rounds

variable (hash : Bytes → String) (files : PluginFiles) (manifest : PluginRulesManifest) (root : String)

/-- Take a rule. -/
def addRule (rule : RuleSpec) (state : PluginState) : Except PluginError PluginState :=
  match computeRuleFingerprint hash files rule with
  | none => .error .io
  | some baseFp =>
    match memberFps state.depFps rule rule.dependsOn with
    | .error e => .error e
    | .ok fps =>
      let ruleFp := combineRuleFingerprints hash baseFp fps
      let (nodeId, graph) := state.graph.addNode (ruleTask hash manifest root rule ruleFp)
      .ok ⟨graph, state.nodeMap.insert rule.name nodeId, state.depFps.insert rule.name ruleFp⟩

/-- Take rules one after the other. -/
def addRules : List RuleSpec → PluginState → Except PluginError PluginState
  | [], state => .ok state
  | rule :: rules, state =>
    match addRule hash files manifest root rule state with
    | .error e => .error e
    | .ok state => addRules rules state

/-- The rules that were not taken. -/
def unresolved (nodeMap : AList fun _ : String => NodeId) : List RuleSpec :=
  manifest.rules.filter fun rule => rule.name ∉ nodeMap

/-- The rules that were not taken, and whose dependencies were. -/
def readyRules (nodeMap : AList fun _ : String => NodeId) : List RuleSpec :=
  (unresolved manifest nodeMap).filter fun rule => rule.dependsOn.all fun dep => dep ∈ nodeMap

/-- The error when there is nothing to take. -/
def stuckError (nodeMap : AList fun _ : String => NodeId) : PluginError :=
  .manifest ("dependency cycle or unknown rule dependencies: " ++
    ", ".intercalate ((unresolved manifest nodeMap).map (·.name)))

/-- Take rules in rounds, until there are as many names as rules. -/
def rounds : ℕ → PluginState → BuildOutcome PluginState
  | 0, _ => .unfinished
  | fuel + 1, state =>
    if state.nodeMap.keys.length < manifest.rules.length then
      if readyRules manifest state.nodeMap = [] then .returned (.error (stuckError manifest state.nodeMap))
      else
        match addRules hash files manifest root (readyRules manifest state.nodeMap) state with
        | .error e => .returned (.error e)
        | .ok state => rounds fuel state
    else .returned (.ok state)

end Rounds

/-! ## The edges -/

/-- Add the dependencies of the rule with a node. -/
def addRuleDeps (nodeMap : AList fun _ : String => NodeId) (nodeId : NodeId) :
    List String → BuildGraph Task → BuildOutcome (BuildGraph Task)
  | [], g => .returned (.ok g)
  | dep :: deps, g =>
    match nodeMap.lookup dep with
    | none => .panicked
    | some depId =>
      match g.addDependency depId nodeId with
      | (.error e, _) => .returned (.error (.graph e))
      | (.ok (), g) => addRuleDeps nodeMap nodeId deps g

/-- Add the dependencies of rules. -/
def addAllDeps (nodeMap : AList fun _ : String => NodeId) :
    List RuleSpec → BuildGraph Task → BuildOutcome (BuildGraph Task)
  | [], g => .returned (.ok g)
  | rule :: rules, g =>
    match nodeMap.lookup rule.name with
    | none => .panicked
    | some nodeId =>
      match addRuleDeps nodeMap nodeId rule.dependsOn g with
      | .returned (.ok g) => addAllDeps nodeMap rules g
      | other => other

/-- The task graph of a manifest. A round that goes on takes a name, so that no more rounds than rules do. -/
def buildTaskGraph (hash : Bytes → String) (files : PluginFiles) (manifest : PluginRulesManifest) (root : String) :
    BuildOutcome (BuildGraph Task) :=
  match rounds hash files manifest root (manifest.rules.length + 1) .new with
  | .returned (.ok state) => addAllDeps state.nodeMap manifest.rules state.graph
  | .returned (.error e) => .returned (.error e)
  | .panicked => .panicked
  | .unfinished => .unfinished


/-! ## What the rounds keep -/

section Kept

variable {hash : Bytes → String} {files : PluginFiles} {manifest : PluginRulesManifest} {root : String}

/-- The fingerprint of a rule: that of its own text, with those of the rules that its dependencies name. -/
inductive HasFingerprint (hash : Bytes → String) (files : PluginFiles) (manifest : PluginRulesManifest) :
    RuleSpec → String → Prop where
  | mk {rule : RuleSpec} (members : List (RuleSpec × String)) (hnames : members.map (·.1.name) = rule.dependsOn)
    (hmem : ∀ member ∈ members, member.1 ∈ manifest.rules)
    (hfps : ∀ member ∈ members, HasFingerprint hash files manifest member.1 member.2) :
    HasFingerprint hash files manifest rule
      (combineRuleFingerprints hash (hash (ruleText files rule)) (members.map (·.2)))

/-- A rule lists a name. -/
def Needs (manifest : PluginRulesManifest) (dep name : String) : Prop :=
  ∃ rule ∈ manifest.rules, rule.name = name ∧ dep ∈ rule.dependsOn

/-- The inputs of a rule can be read. -/
def RuleSpec.Readable (files : PluginFiles) (rule : RuleSpec) : Prop :=
  ∀ pattern ∈ rule.inputs, files.unreadable pattern = false

/-- What holds after rules were taken: each has its node, in the order in which they were taken, and names lead
to nodes and fingerprints of rules. There are no edges. -/
structure Taken (hash : Bytes → String) (files : PluginFiles) (manifest : PluginRulesManifest) (root : String)
    (order : List RuleSpec) (state : PluginState) : Prop where
  wellFormed : state.graph.WellFormed
  noEdge : ∀ a b, ¬ state.graph.Edge a b
  tasks : List.Forall₂ (fun rule task =>
    ∃ fp, HasFingerprint hash files manifest rule fp ∧ task = ruleTask hash manifest root rule fp) order
    (state.graph.nodes.map (·.payload))
  nodes : ∀ name id, state.nodeMap.lookup name = some id → (order.map (·.name))[id]? = some name
  names : ∀ name, name ∈ state.nodeMap ↔ name ∈ order.map (·.name)
  fps : ∀ name, name ∈ state.nodeMap →
    ∃ rule ∈ manifest.rules, ∃ fp, rule.name = name ∧ state.depFps.lookup name = some fp ∧ HasFingerprint hash files manifest rule fp
  subset : ∀ rule ∈ order, rule ∈ manifest.rules
  readable : ∀ rule ∈ order, rule.Readable files
  nodup : (manifest.rules.map (·.name)).Nodup → (order.map (·.name)).Nodup
  follows : (manifest.rules.map (·.name)).Nodup → Follows (Needs manifest) (order.map (·.name))

/-- Nothing is taken at the start. -/
theorem Taken.new : Taken hash files manifest root [] .new where
  wellFormed := .new
  noEdge := by simp [PluginState.new, BuildGraph.new, Edge, dependentList]
  tasks := .nil
  nodes := fun name id h => absurd h nofun
  names := fun name => iff_of_false (AList.notMem_empty name) List.not_mem_nil
  fps := fun name h => absurd h (AList.notMem_empty name)
  subset := fun rule h => absurd h List.not_mem_nil
  readable := fun rule h => absurd h List.not_mem_nil
  nodup := fun _ => List.nodup_nil
  follows := fun _ => .nil _

/-- The nodes are as many as the rules taken. -/
theorem Taken.len_eq {order : List RuleSpec} {state : PluginState} (h : Taken hash files manifest root order state) :
    state.graph.len = order.length := by
  have hlength := h.tasks.length_eq
  rw [List.length_map] at hlength
  exact hlength.symm

/-- The fingerprints of dependencies that were taken are found. -/
theorem Taken.exists_memberFps {order : List RuleSpec} {state : PluginState}
    (h : Taken hash files manifest root order state) (rule : RuleSpec) {deps : List String}
    (hdeps : ∀ dep ∈ deps, dep ∈ state.nodeMap) :
    ∃ members : List (RuleSpec × String), members.map (·.1.name) = deps ∧
      (∀ member ∈ members, member.1 ∈ manifest.rules ∧ HasFingerprint hash files manifest member.1 member.2) ∧
      memberFps state.depFps rule deps = .ok (members.map (·.2)) := by
  induction deps with
  | nil => exact ⟨[], rfl, fun member hmember => absurd hmember List.not_mem_nil, rfl⟩
  | cons dep deps ih =>
    obtain ⟨hdep, hrest⟩ := List.forall_mem_cons.mp hdeps
    obtain ⟨members, hnames, hmembers, hfps⟩ := ih hrest
    obtain ⟨member, hmember, fp, rfl, hlookup, hfp⟩ := h.fps dep hdep
    refine ⟨(member, fp) :: members, by rw [List.map_cons, hnames],
      List.forall_mem_cons.mpr ⟨⟨hmember, hfp⟩, hmembers⟩, ?_⟩
    rw [memberFps, hlookup, hfps]
    rfl

/-- What can happen when a rule is taken whose dependencies were: its inputs cannot be read, or it has its node. -/
theorem Taken.addRule {order : List RuleSpec} {state : PluginState} (h : Taken hash files manifest root order state)
    {rule : RuleSpec} (hrule : rule ∈ manifest.rules) (hdeps : ∀ dep ∈ rule.dependsOn, dep ∈ state.nodeMap)
    (hnew : (manifest.rules.map (·.name)).Nodup → rule.name ∉ state.nodeMap) :
    (¬ rule.Readable files ∧ addRule hash files manifest root rule state = .error .io) ∨
      ∃ state', addRule hash files manifest root rule state = .ok state' ∧
        Taken hash files manifest root (order ++ [rule]) state' ∧
        ∀ name, name ∈ state'.nodeMap ↔ name = rule.name ∨ name ∈ state.nodeMap := by
  by_cases hread : rule.inputs.any files.unreadable = true
  · refine Or.inl ⟨fun hreadable => ?_, ?_⟩
    · obtain ⟨pattern, hpattern, hunreadable⟩ := List.any_eq_true.mp hread
      exact absurd ((hreadable pattern hpattern).symm.trans hunreadable) nofun
    · rw [Plugin.addRule, computeRuleFingerprint, if_pos hread]
  · obtain ⟨members, hnames, hmembers, hfps⟩ := h.exists_memberFps rule hdeps
    have hfp : HasFingerprint hash files manifest rule
        (combineRuleFingerprints hash (hash (ruleText files rule)) (members.map (·.2))) :=
      .mk members hnames (fun member hmember => (hmembers member hmember).1) fun member hmember => (hmembers member hmember).2
    have hmap : (order ++ [rule]).map (·.name) = order.map (·.name) ++ [rule.name] := List.map_append
    have hnode : (state.graph.addNode (ruleTask hash manifest root rule
        (combineRuleFingerprints hash (hash (ruleText files rule)) (members.map (·.2))))).1 =
        (order.map (·.name)).length := by
      rw [List.length_map, ← h.len_eq]
      rfl
    refine Or.inr ⟨_, by rw [Plugin.addRule, computeRuleFingerprint, if_neg hread, hfps], ⟨?_, ?_, ?_, ?_, ?_, ?_, ?_, ?_, ?_, ?_⟩, ?_⟩
    · exact h.wellFormed.addNode _
    · dsimp only
      rw [edge_addNode]
      exact h.noEdge
    · dsimp only [BuildGraph.addNode]
      rw [List.map_append]
      exact List.rel_append h.tasks (.cons ⟨_, hfp, rfl⟩ .nil)
    · intro name id hlookup
      dsimp only at hlookup
      rw [hmap]
      by_cases hname : name = rule.name
      · rw [hname, AList.lookup_insert, Option.some.injEq] at hlookup
        rw [← hlookup, hnode, hname, List.getElem?_concat_length]
      · rw [AList.lookup_insert_ne hname] at hlookup
        have hold := h.nodes name id hlookup
        rw [List.getElem?_append_left (List.getElem?_eq_some_iff.mp hold).1]
        exact hold
    · intro name
      rw [hmap, AList.mem_insert, h.names, List.mem_append, List.mem_singleton, or_comm]
    · intro name hname
      by_cases hsame : name = rule.name
      · exact ⟨rule, hrule, _, hsame.symm, by rw [hsame]; exact AList.lookup_insert _, hfp⟩
      · obtain ⟨other, hother, fp, hnamed, hlookup, hotherFp⟩ :=
          h.fps name (Or.resolve_left ((AList.mem_insert _).mp hname) hsame)
        exact ⟨other, hother, fp, hnamed, (AList.lookup_insert_ne hsame).trans hlookup, hotherFp⟩
    · intro other hother
      rcases List.mem_append.mp hother with hother | hother
      · exact h.subset other hother
      · rw [List.mem_singleton.mp hother]
        exact hrule
    · intro other hother
      rcases List.mem_append.mp hother with hother | hother
      · exact h.readable other hother
      · rw [List.mem_singleton.mp hother]
        intro pattern hpattern
        exact Bool.eq_false_iff.mpr fun hunreadable => hread (List.any_eq_true.mpr ⟨pattern, hpattern, hunreadable⟩)
    · intro hunique
      rw [hmap, ← List.concat_eq_append]
      exact (h.nodup hunique).concat fun hold => hnew hunique ((h.names _).mpr hold)
    · intro hunique
      rw [hmap]
      refine (h.follows hunique).concat ?_
      rintro dep ⟨other, hother, hnamed, hdep⟩
      obtain rfl := List.inj_on_of_nodup_map hunique hother hrule hnamed
      exact (h.names dep).mp (hdeps dep hdep)
    · intro name
      exact AList.mem_insert _

/-- What can happen when rules are taken: the inputs of one cannot be read, or all have their nodes. -/
theorem Taken.addRules {order : List RuleSpec} {state : PluginState} (h : Taken hash files manifest root order state)
    {rules : List RuleSpec} (hrules : ∀ rule ∈ rules, rule ∈ manifest.rules)
    (hdeps : ∀ rule ∈ rules, ∀ dep ∈ rule.dependsOn, dep ∈ state.nodeMap)
    (hnew : (manifest.rules.map (·.name)).Nodup →
      (rules.map (·.name)).Nodup ∧ ∀ rule ∈ rules, rule.name ∉ state.nodeMap) :
    ((∃ rule ∈ manifest.rules, ¬ rule.Readable files) ∧ addRules hash files manifest root rules state = .error .io) ∨
      ∃ state', addRules hash files manifest root rules state = .ok state' ∧
        Taken hash files manifest root (order ++ rules) state' ∧
        ∀ name, name ∈ state'.nodeMap ↔ name ∈ rules.map (·.name) ∨ name ∈ state.nodeMap := by
  induction rules generalizing order state with
  | nil =>
    refine Or.inr ⟨state, rfl, ?_, fun name => ?_⟩
    · rw [List.append_nil]
      exact h
    · exact (or_iff_right List.not_mem_nil).symm
  | cons rule rules ih =>
    obtain ⟨hrule, hrules⟩ := List.forall_mem_cons.mp hrules
    obtain ⟨hdep, hdeps⟩ := List.forall_mem_cons.mp hdeps
    rcases h.addRule hrule hdep fun hunique => (hnew hunique).2 rule List.mem_cons_self with
      ⟨hread, hadd⟩ | ⟨next, hadd, htaken, hnames⟩
    · exact Or.inl ⟨⟨rule, hrule, hread⟩, by rw [Plugin.addRules, hadd]⟩
    · have hrest : (manifest.rules.map (·.name)).Nodup →
          (rules.map (·.name)).Nodup ∧ ∀ rule ∈ rules, rule.name ∉ next.nodeMap := by
        intro hunique
        obtain ⟨hnodup, hold⟩ := hnew hunique
        rw [List.map_cons, List.nodup_cons] at hnodup
        refine ⟨hnodup.2, fun other hother hin => ?_⟩
        rcases (hnames _).mp hin with hsame | hin
        · exact hnodup.1 (hsame ▸ List.mem_map_of_mem hother)
        · exact hold other (List.mem_cons_of_mem _ hother) hin
      have hall := ih htaken hrules (fun other hother dep hdep => (hnames dep).mpr (Or.inr (hdeps other hother dep hdep))) hrest
      rw [Plugin.addRules, hadd]
      rcases hall with herror | ⟨state', hok, htaken', hnames'⟩
      · exact Or.inl herror
      · refine Or.inr ⟨state', hok, ?_, fun name => ?_⟩
        · rw [List.append_assoc, List.singleton_append] at htaken'
          exact htaken'
        · rw [hnames', hnames, List.map_cons, List.mem_cons, or_left_comm, or_assoc]

/-- What a round takes was not taken before, but its dependencies were. -/
theorem mem_readyRules_iff {nodeMap : AList fun _ : String => NodeId} {rule : RuleSpec} :
    rule ∈ readyRules manifest nodeMap ↔
      rule ∈ manifest.rules ∧ rule.name ∉ nodeMap ∧ ∀ dep ∈ rule.dependsOn, dep ∈ nodeMap := by
  rw [readyRules, unresolved, List.mem_filter, List.mem_filter, List.all_eq_true]
  simp only [decide_eq_true_eq, and_assoc]

/-- What can happen in a round. -/
theorem Taken.round {order : List RuleSpec} {state : PluginState} (h : Taken hash files manifest root order state) :
    ((∃ rule ∈ manifest.rules, ¬ rule.Readable files) ∧
        Plugin.addRules hash files manifest root (readyRules manifest state.nodeMap) state = .error .io) ∨
      ∃ state', Plugin.addRules hash files manifest root (readyRules manifest state.nodeMap) state = .ok state' ∧
        Taken hash files manifest root (order ++ readyRules manifest state.nodeMap) state' ∧
        ∀ name, name ∈ state'.nodeMap ↔
          name ∈ (readyRules manifest state.nodeMap).map (·.name) ∨ name ∈ state.nodeMap := by
  refine h.addRules (fun rule hrule => (mem_readyRules_iff.mp hrule).1)
    (fun rule hrule => (mem_readyRules_iff.mp hrule).2.2) fun hunique => ⟨?_, fun rule hrule => (mem_readyRules_iff.mp hrule).2.1⟩
  exact hunique.sublist ((List.filter_sublist.trans List.filter_sublist).map _)

/-- A round with something to take takes a name. -/
theorem keys_length_lt {nodeMap nodeMap' : AList fun _ : String => NodeId} {taken : List String} (hsome : taken ≠ [])
    (hnew : ∀ name ∈ taken, name ∉ nodeMap) (hnames : ∀ name, name ∈ nodeMap' ↔ name ∈ taken ∨ name ∈ nodeMap) :
    nodeMap.keys.length < nodeMap'.keys.length := by
  obtain ⟨name, hname⟩ := List.exists_mem_of_ne_nil taken hsome
  have hnodup : (name :: nodeMap.keys).Nodup := List.nodup_cons.mpr ⟨hnew name hname, nodeMap.keys_nodup⟩
  refine (List.subperm_of_subset hnodup ?_).length_le
  refine List.cons_subset.mpr ⟨(hnames name).mpr (Or.inl hname), fun other hother => ?_⟩
  exact (hnames other).mpr (Or.inr hother)

/-- How the rounds end, when enough of them can be made: an input cannot be read, there is nothing to take, or
there are as many names as rules. -/
theorem Taken.rounds {fuel : ℕ} {order : List RuleSpec} {state : PluginState}
    (h : Taken hash files manifest root order state) (hfuel : manifest.rules.length < fuel + state.nodeMap.keys.length) :
    ((∃ rule ∈ manifest.rules, ¬ rule.Readable files) ∧
        rounds hash files manifest root fuel state = .returned (.error .io)) ∨
      (∃ order' state', Taken hash files manifest root order' state' ∧
        state'.nodeMap.keys.length < manifest.rules.length ∧ readyRules manifest state'.nodeMap = [] ∧
        rounds hash files manifest root fuel state = .returned (.error (stuckError manifest state'.nodeMap))) ∨
      ∃ order' state', Taken hash files manifest root order' state' ∧
        manifest.rules.length ≤ state'.nodeMap.keys.length ∧
        rounds hash files manifest root fuel state = .returned (.ok state') := by
  induction fuel generalizing order state with
  | zero =>
    -- There cannot be more names than rules.
    have hle : state.nodeMap.keys.length ≤ (manifest.rules.map (·.name)).length := by
      refine (List.subperm_of_subset state.nodeMap.keys_nodup fun name hname => ?_).length_le
      obtain ⟨rule, hrule, rfl⟩ := List.mem_map.mp ((h.names name).mp hname)
      exact List.mem_map_of_mem (h.subset rule hrule)
    rw [List.length_map] at hle
    omega
  | succ fuel ih =>
    rw [Plugin.rounds]
    split
    · rename_i hmore
      split
      · rename_i hstuck
        exact Or.inr (Or.inl ⟨order, state, h, hmore, hstuck, rfl⟩)
      · rename_i hready
        rcases h.round with ⟨hread, hadd⟩ | ⟨next, hadd, htaken, hnames⟩
        · rw [hadd]
          exact Or.inl ⟨hread, rfl⟩
        · have hlt : state.nodeMap.keys.length < next.nodeMap.keys.length := by
            refine keys_length_lt (fun hnil => hready (List.map_eq_nil_iff.mp hnil)) (fun name hname => ?_) hnames
            obtain ⟨rule, hrule, rfl⟩ := List.mem_map.mp hname
            exact (mem_readyRules_iff.mp hrule).2.1
          rw [hadd]
          exact ih htaken (by omega)
    · rename_i hdone
      exact Or.inr (Or.inr ⟨order, state, h, Nat.le_of_not_lt hdone, rfl⟩)

end Kept

/-! ## The graph -/

/-- The rules can be put in order: their names are different, and their dependencies are names of rules, without
a cycle. -/
structure Consistent (manifest : PluginRulesManifest) : Prop where
  nodup : (manifest.rules.map (·.name)).Nodup
  known : ∀ rule ∈ manifest.rules, ∀ dep ∈ rule.dependsOn, ∃ other ∈ manifest.rules, other.name = dep
  acyclic : Acyclic (Needs manifest)

/-- A graph has a node for each rule, with its command, and the edges of the dependencies. -/
structure Realizes (manifest : PluginRulesManifest) (order : List RuleSpec) (g : BuildGraph Task) : Prop where
  perm : order.Perm manifest.rules
  tasks : List.Forall₂ (fun rule task =>
    task.spec.program = rule.command ∧ task.spec.args = rule.args ∧ task.spec.env = rule.env.entries) order
    (g.nodes.map (·.payload))
  edges : ∀ a b, g.Edge a b ↔
    ∃ dep rule, order[a]? = some dep ∧ order[b]? = some rule ∧ dep.name ∈ rule.dependsOn

section Graph

variable {hash : Bytes → String} {files : PluginFiles} {manifest : PluginRulesManifest} {root : String}
  {order : List RuleSpec} {state : PluginState}

/-- Where as many names as rules were taken, all rules were, and their names are different. -/
theorem Taken.complete (h : Taken hash files manifest root order state)
    (hdone : manifest.rules.length ≤ state.nodeMap.keys.length) :
    (manifest.rules.map (·.name)).Nodup ∧ order.Perm manifest.rules := by
  have hsub : state.nodeMap.keys.Subperm (manifest.rules.map (·.name)) := by
    refine List.subperm_of_subset state.nodeMap.keys_nodup fun name hname => ?_
    obtain ⟨rule, hrule, rfl⟩ := List.mem_map.mp ((h.names name).mp hname)
    exact List.mem_map_of_mem (h.subset rule hrule)
  have hperm := hsub.perm_of_length_le (by rw [List.length_map]; exact hdone)
  have hunique : (manifest.rules.map (·.name)).Nodup := hperm.nodup_iff.mp state.nodeMap.keys_nodup
  refine ⟨hunique, ?_⟩
  rw [List.perm_ext_iff_of_nodup (h.nodup hunique).of_map hunique.of_map]
  intro rule
  refine ⟨h.subset rule, fun hrule => ?_⟩
  have hname : rule.name ∈ state.nodeMap := hperm.mem_iff.mpr (List.mem_map_of_mem hrule)
  obtain ⟨other, hother, hnamed⟩ := List.mem_map.mp ((h.names _).mp hname)
  rwa [List.inj_on_of_nodup_map hunique hrule (h.subset other hother) hnamed.symm]

/-- The names of rules that were all taken are there, and so are those of their dependencies. -/
theorem Taken.names_complete (h : Taken hash files manifest root order state)
    (hdone : manifest.rules.length ≤ state.nodeMap.keys.length) {rule : RuleSpec} (hrule : rule ∈ manifest.rules) :
    rule.name ∈ state.nodeMap ∧ ∀ dep ∈ rule.dependsOn, dep ∈ state.nodeMap := by
  obtain ⟨hunique, hperm⟩ := h.complete hdone
  have hname : rule.name ∈ order.map (·.name) := List.mem_map_of_mem (hperm.mem_iff.mpr hrule)
  refine ⟨(h.names _).mpr hname, fun dep hdep => (h.names dep).mpr ?_⟩
  obtain ⟨earlier, later, heq⟩ := List.append_of_mem hname
  rw [heq]
  exact List.mem_append_left _ (h.follows hunique earlier rule.name later heq dep ⟨rule, hrule, rfl, hdep⟩)

/-- Rules that were all taken can be put in order. -/
theorem Taken.consistent (h : Taken hash files manifest root order state)
    (hdone : manifest.rules.length ≤ state.nodeMap.keys.length) : Consistent manifest where
  nodup := (h.complete hdone).1
  known := by
    intro rule hrule dep hdep
    obtain ⟨other, hother, hnamed⟩ := List.mem_map.mp ((h.names dep).mp ((h.names_complete hdone hrule).2 dep hdep))
    exact ⟨other, h.subset other hother, hnamed⟩
  acyclic := by
    refine (h.follows (h.complete hdone).1).acyclic ?_
    rintro dep name ⟨rule, hrule, rfl, -⟩
    exact (h.names _).mp (h.names_complete hdone hrule).1

/-- In rules that can be put in order there is no endless descent along dependencies. -/
theorem Consistent.needs_wf (hc : Consistent manifest) : WellFounded (Needs manifest) := by
  refine hc.acyclic.wellFounded (manifest.rules.map (·.name)).toFinset ?_
  rintro dep name ⟨rule, hrule, -, hdep⟩
  obtain ⟨other, hother, hnamed⟩ := hc.known rule hrule dep hdep
  exact List.mem_toFinset.mpr (List.mem_map.mpr ⟨other, hother, hnamed⟩)

/-- While rules that can be put in order remain, there is one to take. -/
theorem Consistent.readyRules_ne_nil (hc : Consistent manifest) {nodeMap : AList fun _ : String => NodeId}
    (hmore : nodeMap.keys.length < manifest.rules.length) : readyRules manifest nodeMap ≠ [] := by
  have hremains : {name | name ∈ manifest.rules.map (·.name) ∧ name ∉ nodeMap}.Nonempty := by
    by_contra hnone
    have hall : manifest.rules.map (·.name) ⊆ nodeMap.keys := fun name hname =>
      of_not_not fun hnot => hnone ⟨name, hname, hnot⟩
    have hlength := (List.subperm_of_subset hc.nodup hall).length_le
    rw [List.length_map] at hlength
    omega
  -- A remaining rule that depends on no other remaining one can be taken.
  obtain ⟨name, ⟨hname, hnew⟩, hmin⟩ := hc.needs_wf.has_min _ hremains
  obtain ⟨rule, hrule, rfl⟩ := List.mem_map.mp hname
  refine List.ne_nil_of_mem (mem_readyRules_iff.mpr ⟨hrule, hnew, fun dep hdep => ?_⟩)
  by_contra hdepNew
  obtain ⟨other, hother, hnamed⟩ := hc.known rule hrule dep hdep
  exact hmin dep ⟨List.mem_map.mpr ⟨other, hother, hnamed⟩, hdepNew⟩ ⟨rule, hrule, rfl, hdep⟩

/-- The node to which a name leads. -/
def idOf (nodeMap : AList fun _ : String => NodeId) (name : String) : NodeId :=
  (nodeMap.lookup name).getD 0

/-- The edges that are requested for rules. -/
def ruleEdges (nodeMap : AList fun _ : String => NodeId) (rules : List RuleSpec) : List (NodeId × NodeId) :=
  rules.flatMap fun rule => rule.dependsOn.map fun dep => (idOf nodeMap dep, idOf nodeMap rule.name)

/-- A name that is there leads to its node. -/
theorem lookup_eq_idOf {nodeMap : AList fun _ : String => NodeId} {name : String} (hname : name ∈ nodeMap) :
    nodeMap.lookup name = some (idOf nodeMap name) := by
  obtain ⟨id, hid⟩ := Option.isSome_iff_exists.mp (AList.lookup_isSome.mpr hname)
  rw [idOf, hid]
  rfl

/-- With their names there, dependencies are requested one after the other. -/
theorem addRuleDeps_eq {nodeMap : AList fun _ : String => NodeId} (nodeId : NodeId) {deps : List String}
    (g : BuildGraph Task) (hdeps : ∀ dep ∈ deps, dep ∈ nodeMap) :
    addRuleDeps nodeMap nodeId deps g =
      .returned ((requestEdges (deps.map fun dep => (idOf nodeMap dep, nodeId)) g).mapError .graph) := by
  induction deps generalizing g with
  | nil => rfl
  | cons dep deps ih =>
    obtain ⟨hdep, hrest⟩ := List.forall_mem_cons.mp hdeps
    rw [addRuleDeps, lookup_eq_idOf hdep, List.map_cons, requestEdges]
    dsimp only
    rcases g.addDependency (idOf nodeMap dep) nodeId with ⟨e | ⟨⟩, next⟩
    · rfl
    · exact ih next hrest

/-- With their names there, the dependencies of rules are requested one after the other. -/
theorem addAllDeps_eq {nodeMap : AList fun _ : String => NodeId} {rules : List RuleSpec} (g : BuildGraph Task)
    (hrules : ∀ rule ∈ rules, rule.name ∈ nodeMap ∧ ∀ dep ∈ rule.dependsOn, dep ∈ nodeMap) :
    addAllDeps nodeMap rules g = .returned ((requestEdges (ruleEdges nodeMap rules) g).mapError .graph) := by
  induction rules generalizing g with
  | nil => rfl
  | cons rule rules ih =>
    obtain ⟨⟨hname, hdeps⟩, hrest⟩ := List.forall_mem_cons.mp hrules
    rw [addAllDeps, lookup_eq_idOf hname, ruleEdges, List.flatMap_cons, requestEdges_append, ← ruleEdges]
    dsimp only
    rw [addRuleDeps_eq _ g hdeps]
    cases requestEdges (rule.dependsOn.map fun dep => (idOf nodeMap dep, idOf nodeMap rule.name)) g with
    | error e => rfl
    | ok g' => exact ih g' hrest

/-- A rule that was taken has the node to which its name leads. -/
theorem Taken.getElem?_idOf (h : Taken hash files manifest root order state) {name : String}
    (hname : name ∈ state.nodeMap) : ∃ rule, order[idOf state.nodeMap name]? = some rule ∧ rule.name = name := by
  have hnode := h.nodes name _ (lookup_eq_idOf hname)
  rw [List.getElem?_map, Option.map_eq_some_iff] at hnode
  exact hnode

/-- The requested edges are those of the dependencies. -/
theorem Taken.mem_ruleEdges_iff (h : Taken hash files manifest root order state)
    (hdone : manifest.rules.length ≤ state.nodeMap.keys.length) (a b : ℕ) :
    (a, b) ∈ ruleEdges state.nodeMap manifest.rules ↔
      ∃ dep rule, order[a]? = some dep ∧ order[b]? = some rule ∧ dep.name ∈ rule.dependsOn := by
  obtain ⟨hunique, hperm⟩ := h.complete hdone
  have hid : ∀ {i : ℕ} {rule : RuleSpec}, order[i]? = some rule → idOf state.nodeMap rule.name = i := by
    intro i rule hrule
    have hname : rule.name ∈ state.nodeMap :=
      (h.names _).mpr (List.mem_map_of_mem (List.mem_of_getElem? hrule))
    have hnode := h.nodes rule.name _ (lookup_eq_idOf hname)
    have hown : (order.map (·.name))[i]? = some rule.name := by rw [List.getElem?_map, hrule, Option.map_some]
    exact (List.getElem?_inj (List.getElem?_eq_some_iff.mp hnode).1 (h.nodup hunique)).mp (hnode.trans hown.symm)
  constructor
  · intro hmem
    obtain ⟨rule, hrule, hpair⟩ := List.mem_flatMap.mp hmem
    obtain ⟨dep, hdep, heq⟩ := List.mem_map.mp hpair
    obtain ⟨rfl, rfl⟩ := Prod.mk.inj heq
    obtain ⟨hname, hdeps⟩ := h.names_complete hdone hrule
    obtain ⟨depRule, hdepRule, rfl⟩ := h.getElem?_idOf (hdeps dep hdep)
    obtain ⟨other, hother, hnamed⟩ := h.getElem?_idOf hname
    obtain rfl := List.inj_on_of_nodup_map hunique (h.subset other (List.mem_of_getElem? hother)) hrule hnamed
    exact ⟨depRule, other, hdepRule, hother, hdep⟩
  · rintro ⟨dep, rule, hdep, hrule, hlists⟩
    refine List.mem_flatMap.mpr ⟨rule, h.subset rule (List.mem_of_getElem? hrule), ?_⟩
    exact List.mem_map.mpr ⟨dep.name, hlists, by rw [hid hdep, hid hrule]⟩

/-- The requested edges keep in the graph and close no cycle. -/
theorem Taken.exists_requestEdges (h : Taken hash files manifest root order state)
    (hdone : manifest.rules.length ≤ state.nodeMap.keys.length) :
    ∃ g, requestEdges (ruleEdges state.nodeMap manifest.rules) state.graph = .ok g ∧ Realizes manifest order g ∧
      g.nodes = state.graph.nodes := by
  have hrange : ∀ edge ∈ ruleEdges state.nodeMap manifest.rules, edge.1 < state.graph.len ∧ edge.2 < state.graph.len := by
    intro edge hedge
    obtain ⟨dep, rule, hdep, hrule, -⟩ := (h.mem_ruleEdges_iff hdone edge.1 edge.2).mp hedge
    rw [h.len_eq]
    exact ⟨(List.getElem?_eq_some_iff.mp hdep).1, (List.getElem?_eq_some_iff.mp hrule).1⟩
  -- A cycle of edges would be a cycle of names.
  have hacyclic : Acyclic fun a b => state.graph.Edge a b ∨ (a, b) ∈ ruleEdges state.nodeMap manifest.rules := by
    intro a hcycle
    refine (h.consistent hdone).acyclic ((order[a]?.map (·.name)).getD "") ?_
    refine TransGen.lift (fun id : ℕ => (order[id]?.map (·.name)).getD "") (fun b c hedge => ?_) a a hcycle
    rcases hedge with hold | hedge
    · exact absurd hold (h.noEdge b c)
    · obtain ⟨dep, rule, hdep, hrule, hlists⟩ := (h.mem_ruleEdges_iff hdone b c).mp hedge
      change Needs manifest ((order[b]?.map (·.name)).getD "") ((order[c]?.map (·.name)).getD "")
      rw [hdep, hrule]
      exact ⟨rule, h.subset rule (List.mem_of_getElem? hrule), rfl, hlists⟩
  obtain ⟨g, hok⟩ := (h.wellFormed.requestEdges_ok_iff hrange).mpr hacyclic
  have hadds := h.wellFormed.requestEdges_adds hok
  refine ⟨g, hok, ⟨(h.complete hdone).2, ?_, fun a b => ?_⟩, hadds.nodes⟩
  · rw [hadds.nodes]
    refine h.tasks.imp ?_
    rintro rule task ⟨fp, -, rfl⟩
    exact ⟨rfl, rfl, rfl⟩
  · rw [hadds.edge_iff, or_iff_right (h.noEdge a b), h.mem_ruleEdges_iff hdone]

/-- How building the graph ends: an input cannot be read, the rules cannot be put in order, or there is the graph
of the rules. -/
theorem buildTaskGraph_cases (hash : Bytes → String) (files : PluginFiles) (manifest : PluginRulesManifest)
    (root : String) :
    ((∃ rule ∈ manifest.rules, ¬ rule.Readable files) ∧
        buildTaskGraph hash files manifest root = .returned (.error .io)) ∨
      (¬ Consistent manifest ∧
        ∃ message, buildTaskGraph hash files manifest root = .returned (.error (.manifest message))) ∨
      ∃ order state g, Taken hash files manifest root order state ∧
        manifest.rules.length ≤ state.nodeMap.keys.length ∧ Realizes manifest order g ∧
        g.nodes = state.graph.nodes ∧ buildTaskGraph hash files manifest root = .returned (.ok g) := by
  have hstart : Taken hash files manifest root [] .new := .new
  have hfuel : manifest.rules.length < manifest.rules.length + 1 + PluginState.new.nodeMap.keys.length := by omega
  rcases hstart.rounds hfuel with
    ⟨hread, hend⟩ | ⟨order, state, -, hmore, hstuck, hend⟩ | ⟨order, state, htaken, hdone, hend⟩
  · exact Or.inl ⟨hread, by rw [buildTaskGraph, hend]⟩
  · exact Or.inr (Or.inl ⟨fun hc => hc.readyRules_ne_nil hmore hstuck, _, by rw [buildTaskGraph, hend]; rfl⟩)
  · obtain ⟨g, hok, hrealizes, hnodes⟩ := htaken.exists_requestEdges hdone
    refine Or.inr (Or.inr ⟨order, state, g, htaken, hdone, hrealizes, hnodes, ?_⟩)
    rw [buildTaskGraph, hend]
    dsimp only
    rw [addAllDeps_eq state.graph fun rule hrule => htaken.names_complete hdone hrule, hok]
    rfl

/-- There is a graph of rules that can be put in order, and whose inputs can be read. -/
theorem exists_buildTaskGraph (hash : Bytes → String) (files : PluginFiles) (root : String) (hc : Consistent manifest)
    (hreadable : ∀ rule ∈ manifest.rules, rule.Readable files) :
    ∃ g, buildTaskGraph hash files manifest root = .returned (.ok g) := by
  rcases buildTaskGraph_cases hash files manifest root with
    ⟨⟨rule, hrule, hread⟩, -⟩ | ⟨hnot, -⟩ | ⟨order, state, g, -, -, -, -, hend⟩
  · exact absurd (hreadable rule hrule) hread
  · exact absurd hc hnot
  · exact ⟨g, hend⟩

/-- When the inputs can be read, building the graph returns. There is a graph exactly when the rules can be put in
order, and it has a node for each rule and the edges of the dependencies. -/
theorem buildTaskGraph_exact (hash : Bytes → String) (files : PluginFiles) (manifest : PluginRulesManifest)
    (root : String) (hreadable : ∀ rule ∈ manifest.rules, rule.Readable files) :
    ∃ result, buildTaskGraph hash files manifest root = .returned result ∧
      ((∃ g, result = .ok g) ↔ Consistent manifest) ∧
      ∀ g, result = .ok g → ∃ order, Realizes manifest order g := by
  rcases buildTaskGraph_cases hash files manifest root with
    ⟨⟨rule, hrule, hread⟩, -⟩ | ⟨hc, message, hend⟩ | ⟨order, state, g, htaken, hdone, hrealizes, -, hend⟩
  · exact absurd (hreadable rule hrule) hread
  · refine ⟨_, hend, iff_of_false ?_ hc, ?_⟩
    · rintro ⟨g, hok⟩
      exact absurd hok nofun
    · exact fun g hok => absurd hok nofun
  · refine ⟨_, hend, iff_of_true ⟨g, rfl⟩ (htaken.consistent hdone), fun g' hok => ⟨order, ?_⟩⟩
    rw [← Except.ok.inj hok]
    exact hrealizes

end Graph

/-- A rule that runs a script. -/
def codegen : RuleSpec := ⟨"codegen", "node", ["-e", "process.exit(0)"], [], [], [], ⟨[], StringMap.sorted_nil⟩⟩

/-- A rule that runs it again, after the other one. -/
def compile : RuleSpec := ⟨"compile", "node", ["-e", "process.exit(0)"], [], [], ["codegen"], ⟨[], StringMap.sorted_nil⟩⟩

/-- A manifest with both. -/
def customEngine : PluginRulesManifest := ⟨"custom-engine", [codegen, compile]⟩

/-- A root without files. -/
def noFiles : PluginFiles := ⟨fun _ => .other, fun _ => false⟩

/-- The values that are hashed for this manifest. -/
def customEngineDigests : Digests where
  known := [
    (utf8Bytes "/ws", "3da3aac414e1e666067db9238d67ee514abc1b10d25ef183e925691b993d355a"),
    (utf8Bytes "codegennode-eprocess.exit(0)all_sources",
      "d981c7da3f98eff041f7ccc23d8efad2b7c20081dc1a7baa88da3323988c4391"),
    (utf8Bytes "d981c7da3f98eff041f7ccc23d8efad2b7c20081dc1a7baa88da3323988c4391",
      "16168ecd0f14c310d25404fab5b4202d685ef347c5630ef24cf7fbdb991243ff"),
    (utf8Bytes "compilenode-eprocess.exit(0)all_sources",
      "76fe2b9ddf701d002989cb2f0a91189498b7e0146408b8967f2d93f5c907d570"),
    (utf8Bytes ("76fe2b9ddf701d002989cb2f0a91189498b7e0146408b8967f2d93f5c907d570" ++
      "16168ecd0f14c310d25404fab5b4202d685ef347c5630ef24cf7fbdb991243ff"),
      "f610e2ccb3abcea3b343ccfac001c4eadd714f2ba11daabb31172184ac6420cf")]
  values_nodup := by decide +kernel
  length_eq := by decide +kernel
  nonzero := by decide +kernel

/-- The rules of this manifest can be put in order. -/
theorem customEngine_consistent : Consistent customEngine where
  nodup := by decide
  known := by decide
  acyclic := by
    have hfollows : Follows (Needs customEngine) ["codegen", "compile"] := by
      refine ((Follows.nil _).concat (b := "codegen") ?_).concat (b := "compile") ?_ <;>
        rintro dep ⟨rule, hrule, hnamed, hdep⟩
      · rcases List.mem_pair.mp hrule with rfl | rfl
        · exact hdep
        · exact absurd hnamed (by decide)
      · rcases List.mem_pair.mp hrule with rfl | rfl
        · exact absurd hnamed (by decide)
        · exact hdep
    refine hfollows.acyclic ?_
    rintro dep name ⟨rule, hrule, rfl, -⟩
    exact List.mem_map_of_mem hrule

/-- Building the graph of this manifest returns a graph of its two rules. -/
theorem buildTaskGraph_exact_customEngine :
    ∃ g order, buildTaskGraph (digestOf customEngineDigests) noFiles customEngine "/ws" = .returned (.ok g) ∧
      Realizes customEngine order g := by
  obtain ⟨result, hreturned, hiff, hgraph⟩ := buildTaskGraph_exact (digestOf customEngineDigests) noFiles customEngine "/ws"
    fun rule _ pattern _ => rfl
  obtain ⟨g, rfl⟩ := hiff.mpr customEngine_consistent
  obtain ⟨order, hrealizes⟩ := hgraph g rfl
  exact ⟨g, order, hreturned, hrealizes⟩

end Forge.Plugin
