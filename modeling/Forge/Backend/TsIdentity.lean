import Forge.Backend.Ts

/-!
# What the identities of TypeScript tasks tell

A task is known by its history: itself and the tasks that were taken before it, the last
one first. A name that it waits for stands for the last task of that name in its history.
Two tasks have the same identity exactly when they have the same name and their histories
look alike: the same files are hashed for their projects, and the tasks that they wait for
look alike, in any order.
-/

namespace Forge.Backend.Ts

open Forge.Common Forge.Graph Forge.Graph.BuildGraph Forge.Project Forge.Fingerprint Forge.Executor

/-- The history of the last task of a name. -/
def since (dep : String) (earlier : List TsTaskSpec) : List TsTaskSpec :=
  earlier.dropWhile fun task => task.name != dep

/-- The histories of the tasks that the task of a history waits for. -/
def below : List TsTaskSpec → List (List TsTaskSpec)
  | [] => []
  | task :: earlier => task.dependsOn.map fun dep => since dep earlier

/-- What is hashed for a project, and the name of the task of a history. -/
def label (text : Bytes) : List TsTaskSpec → Bytes × String
  | [] => (text, "")
  | task :: _ => (text, task.name)

/-- The history of an earlier task is not longer. -/
theorem length_since_le (dep : String) (earlier : List TsTaskSpec) : (since dep earlier).length ≤ earlier.length :=
  (List.dropWhile_sublist _).length_le

/-- The fingerprint of the task of a history. -/
def fingerprintOf (hash : Bytes → String) (baseFp : String) : List TsTaskSpec → String
  | [] => ""
  | task :: earlier =>
    taskFingerprint hash baseFp task.name (task.dependsOn.map fun dep => fingerprintOf hash baseFp (since dep earlier))
termination_by history => history.length
decreasing_by exact Nat.lt_succ_of_le (length_since_le _ _)

/-- A task that waits for others has a longer history. -/
theorem below_wf : WellFounded fun d history : List TsTaskSpec => d ∈ below history := by
  refine Subrelation.wf (r := InvImage (· < ·) List.length) ?_ (InvImage.wf _ Nat.lt_wfRel.wf)
  intro d history hd
  cases history with
  | nil => exact absurd hd List.not_mem_nil
  | cons task earlier =>
    obtain ⟨dep, -, rfl⟩ := List.mem_map.mp hd
    exact Nat.lt_succ_of_le (length_since_le dep earlier)

/-- The history of an earlier task is a part of the history. -/
theorem since_suffix (dep : String) (earlier : List TsTaskSpec) : since dep earlier <:+ earlier :=
  List.dropWhile_suffix _

/-- A task stands for its name from then on. -/
theorem since_cons (dep : String) (task : TsTaskSpec) (earlier : List TsTaskSpec) :
    since dep (task :: earlier) = if task.name = dep then task :: earlier else since dep earlier := by
  unfold since
  rw [List.dropWhile_cons]
  by_cases hname : task.name = dep <;> simp [hname]

/-! ## Runs -/

section Runs

variable {hash : Bytes → String} {projectDir : PathBuf} {p : TsProject} {baseFp : String}

/-- The tasks of some history were made, with their fingerprints, and what they wait for was found. -/
structure Processed (hash : Bytes → String) (projectDir : PathBuf) (p : TsProject) (baseFp : String)
    (earlier : List TsTaskSpec) (made : Made) : Prop where
  fps : ∀ dep, made.depFps.lookup dep =
    if since dep earlier = [] then none else some (fingerprintOf hash baseFp (since dep earlier))
  tasks : ∀ t, t ∈ made.graph.nodes.map (·.payload) ↔ ∃ task rest, task :: rest <:+ earlier ∧
    t = makeTask hash projectDir p task (fingerprintOf hash baseFp (task :: rest))
  found : ∀ task rest, task :: rest <:+ earlier → ∀ dep ∈ task.dependsOn, since dep rest ≠ []

/-- The fingerprints of the tasks that a task waits for. -/
theorem memberFps_eq {made : Made} {earlier : List TsTaskSpec} (h : Processed hash projectDir p baseFp earlier made)
    {name : String} {deps fps : List String} (hok : memberFps made.depFps name deps = .ok fps) :
    fps = deps.map (fun dep => fingerprintOf hash baseFp (since dep earlier)) ∧ ∀ dep ∈ deps, since dep earlier ≠ [] := by
  induction deps generalizing fps with
  | nil =>
    obtain rfl := Except.ok.inj hok
    exact ⟨rfl, fun _ hdep => absurd hdep List.not_mem_nil⟩
  | cons dep deps ih =>
    rw [memberFps] at hok
    split at hok
    · exact absurd hok nofun
    · rename_i fp hfp
      cases hrest : memberFps made.depFps name deps with
      | error e =>
        rw [hrest] at hok
        exact absurd hok nofun
      | ok rest =>
        rw [hrest] at hok
        obtain rfl := Except.ok.inj hok
        obtain ⟨rfl, hfound⟩ := ih hrest
        rw [h.fps dep] at hfp
        obtain ⟨hne, hsame⟩ := Option.ite_none_left_eq_some.mp hfp
        rw [List.map_cons, Option.some.inj hsame]
        exact ⟨rfl, List.forall_mem_cons.mpr ⟨hne, hfound⟩⟩

/-- Making a task. -/
theorem Processed.add {made : Made} {earlier : List TsTaskSpec} (h : Processed hash projectDir p baseFp earlier made)
    {task : TsTaskSpec} {fps : List String} (hok : memberFps made.depFps task.name task.dependsOn = .ok fps)
    (node : NodeId) :
    Processed hash projectDir p baseFp (task :: earlier)
      ⟨(task.name, node) :: made.nodeMap, (task.name, taskFingerprint hash baseFp task.name fps) :: made.depFps,
        (made.graph.addNode (makeTask hash projectDir p task (taskFingerprint hash baseFp task.name fps))).2⟩ := by
  obtain ⟨rfl, hfound⟩ := memberFps_eq h hok
  have hfp : taskFingerprint hash baseFp task.name
      (task.dependsOn.map fun dep => fingerprintOf hash baseFp (since dep earlier)) =
        fingerprintOf hash baseFp (task :: earlier) := by
    rw [fingerprintOf]
  rw [hfp]
  constructor
  · intro dep
    rw [since_cons, List.lookup_cons]
    by_cases hname : task.name = dep
    · simp [hname]
    · have hother : (dep == task.name) = false := beq_false_of_ne (Ne.symm hname)
      simp only [hother, if_neg hname]
      exact h.fps dep
  · intro t
    have hnodes : (made.graph.addNode (makeTask hash projectDir p task (fingerprintOf hash baseFp (task :: earlier)))).2.nodes.map
        (·.payload) = made.graph.nodes.map (·.payload) ++
          [makeTask hash projectDir p task (fingerprintOf hash baseFp (task :: earlier))] := by
      simp [addNode]
    rw [hnodes, List.mem_append, List.mem_singleton, h.tasks]
    constructor
    · rintro (⟨task', rest, hsuffix, rfl⟩ | rfl)
      · exact ⟨task', rest, hsuffix.trans (List.suffix_cons _ _), rfl⟩
      · exact ⟨task, earlier, List.suffix_refl _, rfl⟩
    · rintro ⟨task', rest, hsuffix, rfl⟩
      rcases List.suffix_cons_iff.mp hsuffix with hsame | hsuffix
      · obtain ⟨rfl, rfl⟩ := List.cons.inj hsame
        exact .inr rfl
      · exact .inl ⟨task', rest, hsuffix, rfl⟩
  · intro task' rest hsuffix
    rcases List.suffix_cons_iff.mp hsuffix with hsame | hsuffix
    · obtain ⟨rfl, rfl⟩ := List.cons.inj hsame
      exact hfound
    · exact h.found task' rest hsuffix

/-- Making tasks in order. -/
theorem Processed.addTasks {order : List ℕ} {made made' : Made} {earlier : List TsTaskSpec}
    (h : Processed hash projectDir p baseFp earlier made) (hok : addTasks hash projectDir p baseFp order made = .ok made') :
    Processed hash projectDir p baseFp ((order.filterMap (p.config.tasks[·]?)).reverse ++ earlier) made' := by
  induction order generalizing made earlier with
  | nil =>
    obtain rfl := Except.ok.inj hok
    exact h
  | cons idx order ih =>
    rw [Ts.addTasks] at hok
    split at hok
    · exact absurd hok nofun
    · rename_i task htask
      split at hok
      · exact absurd hok nofun
      · rename_i fps hfps
        have hnext := ih (h.add hfps _) hok
        rwa [List.filterMap_cons_some htask, List.reverse_cons, List.append_assoc, List.singleton_append]

/-- What a task waits for adds no tasks. -/
theorem addDeps_nodes {nodeMap : List (String × NodeId)} {node : NodeId} {deps : List String}
    {graph graph' : BuildGraph Task} (hok : addDeps nodeMap node deps graph = .ok graph') : graph'.nodes = graph.nodes := by
  induction deps generalizing graph with
  | nil => exact Except.ok.inj hok ▸ rfl
  | cons dep deps ih =>
    rw [addDeps] at hok
    split at hok
    · exact absurd hok nofun
    · rename_i depNode _
      have hnodes := nodes_addDependency graph depNode node
      split at hok
      · exact absurd hok nofun
      · rename_i hadded
        rw [hadded] at hnodes
        exact (ih hok).trans hnodes

/-- What all tasks wait for adds no tasks. -/
theorem addEdges_nodes {nodeMap : List (String × NodeId)} {tasks : List TsTaskSpec} {graph graph' : BuildGraph Task}
    (hok : addEdges nodeMap tasks graph = .ok graph') : graph'.nodes = graph.nodes := by
  induction tasks generalizing graph with
  | nil => exact Except.ok.inj hok ▸ rfl
  | cons task tasks ih =>
    rw [addEdges] at hok
    split at hok
    · exact absurd hok nofun
    · split at hok
      · exact absurd hok nofun
      · rename_i hdeps
        exact (ih hok).trans (addDeps_nodes hdeps)

/-- The tasks of a project in the order in which they are taken, the last one first. -/
def TsProject.processed (p : TsProject) : List TsTaskSpec :=
  match TaskDag.resolveDagOrder (·.name) (·.dependsOn) p.config.tasks with
  | .error _ => []
  | .ok order => (order.filterMap (p.config.tasks[·]?)).reverse

/-- What is hashed for a project. -/
def TsProject.text (p : TsProject) (projectDir : PathBuf) : Bytes :=
  tsText (osPath projectDir) p.config.sourceDirs p.files.tree

/-- The tasks of a project were made of its configuration. -/
theorem buildTaskGraph_processed {g : BuildGraph Task} (hok : buildTaskGraph hash projectDir p = .ok g) :
    ∃ made, Processed hash projectDir p (hash (p.text projectDir)) p.processed made ∧ g.nodes = made.graph.nodes := by
  unfold buildTaskGraph at hok
  split at hok
  · cases hok
  · rename_i baseFp hbase
    have htext : baseFp = hash (p.text projectDir) := by
      unfold computeTsFingerprint hashReadable at hbase
      exact (Option.some.inj (Option.ite_none_left_eq_some.mp hbase).2).symm
    split at hok
    · cases hok
    · rename_i order horder
      split at hok
      · cases hok
      · rename_i made hmade
        have hstart : Processed hash projectDir p baseFp [] ⟨[], [], BuildGraph.new⟩ :=
          { fps := fun dep => rfl
            tasks := fun t => by simp [BuildGraph.new]
            found := fun task rest hsuffix => by cases List.suffix_nil.mp hsuffix }
        have hprocessed := hstart.addTasks hmade
        rw [List.append_nil] at hprocessed
        refine ⟨made, ?_, addEdges_nodes hok⟩
        unfold TsProject.processed
        rw [horder, ← htext]
        exact hprocessed

/-- The tasks that a graph carries. -/
theorem carries_iff {g : BuildGraph Task} (hok : buildTaskGraph hash projectDir p = .ok g) {entry : CacheEntry}
    {spec : CommandSpec} :
    Carries g entry spec ↔ ∃ task rest, task :: rest <:+ p.processed ∧
      entry = ⟨taskKey hash projectDir task, fingerprintOf hash (hash (p.text projectDir)) (task :: rest)⟩ ∧
        spec = buildCommand projectDir p task := by
  obtain ⟨made, hmade, hnodes⟩ := buildTaskGraph_processed hok
  unfold Carries
  rw [hnodes]
  constructor
  · rintro ⟨t, ht, hentry, rfl⟩
    obtain ⟨task, rest, hsuffix, rfl⟩ := (hmade.tasks t).mp ht
    exact ⟨task, rest, hsuffix, (Option.some.inj hentry).symm, rfl⟩
  · rintro ⟨task, rest, hsuffix, rfl, rfl⟩
    exact ⟨_, (hmade.tasks _).mpr ⟨task, rest, hsuffix, rfl⟩, rfl, rfl⟩

end Runs

/-! ## Identities -/

/-- The history of a task of a project. -/
def Known (p : TsProject) (history : List TsTaskSpec) : Prop :=
  history ≠ [] ∧ history <:+ p.processed

/-- What the tasks of a project wait for are tasks of the project. -/
theorem Known.below {hash : Bytes → String} {projectDir : PathBuf} {p : TsProject} {g : BuildGraph Task}
    (hok : buildTaskGraph hash projectDir p = .ok g) (history : List TsTaskSpec) (h : Known p history) :
    ∀ d ∈ below history, Known p d := by
  obtain ⟨made, hmade, -⟩ := buildTaskGraph_processed hok
  obtain ⟨hne, hsuffix⟩ := h
  cases history with
  | nil => exact absurd rfl hne
  | cons task rest =>
    intro d hd
    obtain ⟨dep, hdep, rfl⟩ := List.mem_map.mp hd
    refine ⟨hmade.found task rest hsuffix dep hdep, ?_⟩
    exact (since_suffix dep rest).trans ((List.suffix_cons task rest).trans hsuffix)

/-- The fingerprint of a task from what is hashed for its project, its name, and other fingerprints. -/
def combineLabel (hash : Bytes → String) (parts : Bytes × String) (fps : List String) : String :=
  taskFingerprint hash (hash parts.1) parts.2 fps

/-- The fingerprint of a task tells its parts. -/
theorem combineLabel_eq_iff {hash : Bytes → String} (hhash : HexHash hash) (parts parts' : Bytes × String)
    (fps fps' : List String) :
    combineLabel hash parts fps = combineLabel hash parts' fps' ↔ parts = parts' ∧ fps.Perm fps' := by
  unfold combineLabel taskFingerprint
  rw [combineFingerprints_eq_iff hhash.injective]
  refine and_congr_left fun _ => ⟨fun hlabel => ?_, fun hparts => by rw [hparts]⟩
  have hchars := congrArg String.toList hlabel
  have hcolon : ":".toList = [':'] := rfl
  simp only [String.toList_append, List.append_assoc, List.append_cancel_left_eq, hcolon, List.singleton_append] at hchars
  have hsplit := congrArg (splitOnce ':') hchars
  rw [splitOnce_append (hhash.plain _).1, splitOnce_append (hhash.plain _).1] at hsplit
  obtain ⟨hbase, hname⟩ := Prod.mk.inj (Option.some.inj hsplit)
  exact Prod.ext (hhash.injective (String.toList_injective hbase)) (String.toList_injective hname)

/-- The histories of two tasks look alike. -/
def HistoriesAlike (projectDir : PathBuf) (p p' : TsProject) : List TsTaskSpec → List TsTaskSpec → Prop :=
  Alike (label (p.text projectDir)) below (label (p'.text projectDir)) below

/-- Tasks with the same name whose histories look alike run the same program with the same arguments. -/
def Agree (projectDir : PathBuf) (p p' : TsProject) : Prop :=
  ∀ task rest task' rest', task :: rest <:+ p.processed → task' :: rest' <:+ p'.processed → task.name = task'.name →
    HistoriesAlike projectDir p p' (task :: rest) (task' :: rest') →
      p.program task = p'.program task' ∧ task.args = task'.args

section Identities

variable {hash : Bytes → String} {projectDir : PathBuf} {p p' : TsProject} {g g' : BuildGraph Task}

/-- Two tasks have the same fingerprint exactly when their histories look alike. -/
theorem fingerprintOf_eq_iff (hhash : HexHash hash) (hok : buildTaskGraph hash projectDir p = .ok g)
    (hok' : buildTaskGraph hash projectDir p' = .ok g') {history history' : List TsTaskSpec} (h : Known p history)
    (h' : Known p' history') :
    fingerprintOf hash (hash (p.text projectDir)) history = fingerprintOf hash (hash (p'.text projectDir)) history' ↔
      HistoriesAlike projectDir p p' history history' := by
  have hvalue : ∀ (q : TsProject) (x : List TsTaskSpec), Known q x → fingerprintOf hash (hash (q.text projectDir)) x =
      combineLabel hash (label (q.text projectDir) x) ((below x).map (fingerprintOf hash (hash (q.text projectDir)))) := by
    intro q x hx
    cases x with
    | nil => exact absurd rfl hx.1
    | cons task rest =>
      rw [fingerprintOf, below, List.map_map]
      rfl
  exact alike_iff (combineLabel_eq_iff hhash) below_wf (hvalue p) (hvalue p') (Known.below hok) (Known.below hok') h h'

/-- Keys tell the names of tasks. -/
theorem taskKey_eq_iff {task task' : TsTaskSpec} :
    taskKey hash projectDir task = taskKey hash projectDir task' ↔ task.name = task'.name := by
  unfold taskKey
  rw [formatCacheKey_inj (by decide) (by decide), and_iff_right rfl]

/-- Commands are the same when their programs and arguments are. -/
theorem sameCommand_buildCommand_iff {task task' : TsTaskSpec} :
    SameCommand (buildCommand projectDir p task) (buildCommand projectDir p' task') ↔
      p.program task = p'.program task' ∧ task.args = task'.args :=
  ⟨fun h => ⟨h.program, h.args⟩, fun ⟨hprogram, hargs⟩ => ⟨hprogram, hargs, rfl, rfl⟩⟩

/-- The identities of tasks of two projects tell their commands exactly when tasks with the same name whose
histories look alike run the same command. -/
theorem identifies_iff (hhash : HexHash hash) (hok : buildTaskGraph hash projectDir p = .ok g)
    (hok' : buildTaskGraph hash projectDir p' = .ok g') : Identifies g g' ↔ Agree projectDir p p' := by
  constructor
  · intro hidentifies task rest task' rest' hsuffix hsuffix' hname halike
    have hknown : Known p (task :: rest) := ⟨List.cons_ne_nil _ _, hsuffix⟩
    have hknown' : Known p' (task' :: rest') := ⟨List.cons_ne_nil _ _, hsuffix'⟩
    have hfingerprint := (fingerprintOf_eq_iff hhash hok hok' hknown hknown').mpr halike
    refine sameCommand_buildCommand_iff.mp (hidentifies _ _ _ ((carries_iff hok).mpr ⟨task, rest, hsuffix, rfl, rfl⟩)
      ((carries_iff hok').mpr ⟨task', rest', hsuffix', ?_, rfl⟩))
    rw [hfingerprint, taskKey_eq_iff.mpr hname]
  · intro hagree entry spec spec' hcarries hcarries'
    obtain ⟨task, rest, hsuffix, rfl, rfl⟩ := (carries_iff hok).mp hcarries
    obtain ⟨task', rest', hsuffix', hentry, rfl⟩ := (carries_iff hok').mp hcarries'
    obtain ⟨hkey, hfingerprint⟩ := CacheEntry.mk.inj hentry
    have hknown : Known p (task :: rest) := ⟨List.cons_ne_nil _ _, hsuffix⟩
    have hknown' : Known p' (task' :: rest') := ⟨List.cons_ne_nil _ _, hsuffix'⟩
    have halike := (fingerprintOf_eq_iff hhash hok hok' hknown hknown').mp hfingerprint
    exact sameCommand_buildCommand_iff.mpr
      (hagree task rest task' rest' hsuffix hsuffix' (taskKey_eq_iff.mp hkey) halike)

/-- The identities of tasks tell their commands exactly when, in each project and between them, tasks with
the same name whose histories look alike run the same command. -/
theorem identified_iff (hhash : HexHash hash) (hok : buildTaskGraph hash projectDir p = .ok g)
    (hok' : buildTaskGraph hash projectDir p' = .ok g') :
    Identified g g' ↔ Agree projectDir p p ∧ Agree projectDir p p' ∧ Agree projectDir p' p' := by
  rw [identified_iff_and, identifies_iff hhash hok hok, identifies_iff hhash hok hok', identifies_iff hhash hok' hok']

end Identities

end Forge.Backend.Ts
