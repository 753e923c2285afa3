import Forge.Backend.Identity

/-!
# The tasks of the Java backend

A Maven project is cleaned, compiled, and then packaged and tested; a Gradle project is
cleaned, built and tested. All goals but the cleaning are cached, with one fingerprint: the
versions of the toolchain, the build system, the sources and the build files.
-/

namespace Forge.Backend.Java

open Forge.Common Forge.Graph Forge.Graph.BuildGraph Forge.Project Forge.Fingerprint Forge.Executor

/-- The build systems. -/
inductive JavaBuildSystem where
  | maven
  | gradle
deriving DecidableEq, Repr

/-- The configuration of a project. -/
structure JavaProjectConfig where
  groupId : String
  artifactId : String
  version : String
  buildSystem : JavaBuildSystem
  skipTests : Bool
deriving DecidableEq, Repr

/-- The toolchain that was found. -/
structure JavaToolchain where
  javaVersion : String
  kotlinVersion : Option String
  mavenExecutable : Option String
  gradleExecutable : Option String

/-- Why there are no tasks. -/
inductive JavaBackendError where
  | toolchain (message : String)
  | graph (e : GraphError)
deriving DecidableEq, Repr

/-! ## Fingerprint -/

/-- The extensions of the sources. -/
def javaExtensions : List String := ["java", "kt", "kts", "scala", "groovy"]

/-- The name under which a build system is hashed. -/
def JavaBuildSystem.hashedName : JavaBuildSystem → String
  | .maven => "maven"
  | .gradle => "gradle"

/-- What the keys of a build system start with. -/
def JavaBuildSystem.cacheBackend : JavaBuildSystem → String
  | .maven => "java/maven"
  | .gradle => "java/gradle"

/-- The name of a build system in labels. -/
def JavaBuildSystem.tool : JavaBuildSystem → String
  | .maven => "mvn"
  | .gradle => "gradle"

/-- The build files of a build system. -/
def JavaBuildSystem.buildFiles : JavaBuildSystem → List String
  | .maven => ["pom.xml", "pom.properties"]
  | .gradle => ["build.gradle", "build.gradle.kts", "settings.gradle", "settings.gradle.kts", "gradle.properties"]

/-- What is hashed for a project. -/
def javaText (projectDir : Path) (javaVersion : String) (kotlinVersion : Option String) (buildSystem : JavaBuildSystem)
    (fs : Tree) : Bytes :=
  utf8Bytes javaVersion ++ (match kotlinVersion with
    | some version => utf8Bytes version
    | none => []) ++ utf8Bytes buildSystem.hashedName ++
    hashDirectoryFiltered (withExtensions javaExtensions defaultExcludedDirs) projectDir (fs.descend projectDir) ++
    buildSystem.buildFiles.flatMap fun name => fileBytes fs (projectDir ++ [utf8Bytes name])

/-- The fingerprint of a project. -/
def computeJavaFingerprint (hash : Bytes → String) (projectDir : Path) (javaVersion : String)
    (kotlinVersion : Option String) (buildSystem : JavaBuildSystem) (files : ProjectFiles) : Option String :=
  hashReadable hash files (javaText projectDir javaVersion kotlinVersion buildSystem files.tree)

/-! ## Tasks -/

/-- The backend with its toolchain, for a project directory. -/
structure JavaBackend where
  toolchain : JavaToolchain
  projectDir : PathBuf

namespace JavaBackend

variable (hash : Bytes → String) (b : JavaBackend) (config : JavaProjectConfig)

/-- A command of a build system in the project directory. -/
def command (executable : String) (args : List String) : CommandSpec :=
  { CommandSpec.new executable with args := args, cwd := some (pathString b.projectDir) }

/-- What is hashed for the project. -/
def hashedText (files : ProjectFiles) : Bytes :=
  javaText (osPath b.projectDir) b.toolchain.javaVersion b.toolchain.kotlinVersion config.buildSystem files.tree

/-- The fingerprint of the project. -/
def fingerprint (files : ProjectFiles) : String :=
  orNoFp (computeJavaFingerprint hash (osPath b.projectDir) b.toolchain.javaVersion b.toolchain.kotlinVersion
    config.buildSystem files)

/-- The key of a goal. -/
def goalKey (backend mode : String) : String :=
  formatCacheKey backend (computeNamespace hash (osPath b.projectDir)) mode config.artifactId

/-- The task that removes the outputs. -/
def cleanTask (tool executable : String) : Task :=
  let spec := b.command executable ["clean"]
  Task.new (tool ++ " clean " ++ config.groupId) spec.commandLine spec

/-- A cached task for a goal. -/
def goalTask (backend tool mode : String) (spec : CommandSpec) (fp : String) : Task :=
  { Task.new (tool ++ " " ++ mode ++ " " ++ config.artifactId) spec.commandLine spec with
    cache := some ⟨b.goalKey hash config backend mode, fp⟩ }

/-- The tasks of a Maven project. -/
def createMavenTasks (fp : String) (graph : BuildGraph Task) : Except JavaBackendError (BuildGraph Task) :=
  match b.toolchain.mavenExecutable with
  | none => .error (.toolchain "Maven not found")
  | some maven =>
    let skip := if config.skipTests then ["-DskipTests"] else []
    let (clean, graph) := graph.addNode (b.cleanTask config "mvn" maven)
    match addAfter graph clean (b.goalTask hash config "java/maven" "mvn" "compile" (b.command maven ("compile" :: skip)) fp) with
    | .error e => .error (.graph e)
    | .ok (compile, graph) =>
      match addAfter graph compile
          (b.goalTask hash config "java/maven" "mvn" "package" (b.command maven ("package" :: skip)) fp) with
      | .error e => .error (.graph e)
      | .ok (_, graph) =>
        if config.skipTests then .ok graph
        else
          match addAfter graph compile (b.goalTask hash config "java/maven" "mvn" "test" (b.command maven ["test"]) fp) with
          | .error e => .error (.graph e)
          | .ok (_, graph) => .ok graph

/-- The tasks of a Gradle project. -/
def createGradleTasks (fp : String) (graph : BuildGraph Task) : Except JavaBackendError (BuildGraph Task) :=
  match b.toolchain.gradleExecutable with
  | none => .error (.toolchain "Gradle not found")
  | some gradle =>
    let skip := if config.skipTests then ["-x", "test"] else []
    let (clean, graph) := graph.addNode (b.cleanTask config "gradle" gradle)
    match addAfter graph clean
        (b.goalTask hash config "java/gradle" "gradle" "build" (b.command gradle ("build" :: skip)) fp) with
    | .error e => .error (.graph e)
    | .ok (build, graph) =>
      if config.skipTests then .ok graph
      else
        match addAfter graph build (b.goalTask hash config "java/gradle" "gradle" "test" (b.command gradle ["test"]) fp) with
        | .error e => .error (.graph e)
        | .ok (_, graph) => .ok graph

/-- The tasks of a project. -/
def createTasksFromConfig (files : ProjectFiles) : Except JavaBackendError (BuildGraph Task) :=
  let fp := b.fingerprint hash config files
  match config.buildSystem with
  | .maven => b.createMavenTasks hash config fp BuildGraph.new
  | .gradle => b.createGradleTasks hash config fp BuildGraph.new

/-- The executable that is used. -/
def executable : Option String :=
  match config.buildSystem with
  | .maven => b.toolchain.mavenExecutable
  | .gradle => b.toolchain.gradleExecutable

/-- The goals that are cached, by mode. -/
def stages (executable : String) : List (String × CommandSpec) :=
  match config.buildSystem with
  | .maven =>
    let skip := if config.skipTests then ["-DskipTests"] else []
    [("compile", b.command executable ("compile" :: skip)), ("package", b.command executable ("package" :: skip))] ++
      if config.skipTests then [] else [("test", b.command executable ["test"])]
  | .gradle =>
    let skip := if config.skipTests then ["-x", "test"] else []
    [("build", b.command executable ("build" :: skip))] ++
      if config.skipTests then [] else [("test", b.command executable ["test"])]

/-! ## The graph -/

variable {hash b config}

/-- The graph of tasks that all wait for an earlier one but the first. -/
structure Waiting (g : BuildGraph Task) (tasks : List Task) : Prop where
  wellFormed : g.WellFormed
  payloads : g.nodes.map (·.payload) = tasks
  nonempty : 0 < g.len
  first : g.depList 0 = []
  waits : ∀ id, 0 < id → id < g.len → g.depList id ≠ []
  earlier : ∀ id dep : ℕ, dep ∈ g.depList id → dep < id

/-- The first task does not wait. -/
theorem Waiting.start (task : Task) : Waiting (BuildGraph.new.addNode task).2 [task] where
  wellFormed := WellFormed.new.addNode task
  payloads := rfl
  nonempty := Nat.one_pos
  first := depList_addNode BuildGraph.new task 0
  waits := by
    intro id hpos hlt
    rw [len_addNode] at hlt
    exact absurd (Nat.lt_of_lt_of_le hpos (Nat.lt_succ_iff.mp hlt)) (Nat.lt_irrefl 0)
  earlier := by
    intro id dep hdep
    rw [depList_addNode] at hdep
    exact absurd hdep List.not_mem_nil

/-- A further task waits. -/
theorem Waiting.add {g g' : BuildGraph Task} {tasks : List Task} (h : Waiting g tasks) {dependency node : NodeId}
    {task : Task} (hok : addAfter g dependency task = .ok (node, g')) : Waiting g' (tasks ++ [task]) := by
  obtain ⟨hwf, -, hlen, hdeps⟩ := addAfter_spec h.wellFormed hok
  refine ⟨hwf, ?_, ?_, ?_, ?_, ?_⟩
  · rw [addAfter_payloads hok, h.payloads]
  · rw [hlen]
    exact Nat.succ_pos _
  · rw [hdeps, if_neg (Nat.ne_of_lt h.nonempty)]
    exact h.first
  · intro id hpos hlt
    rw [hdeps]
    by_cases hid : id = g.len
    · rw [if_pos hid]
      exact List.cons_ne_nil _ _
    · rw [if_neg hid]
      rw [hlen] at hlt
      exact h.waits id hpos (Nat.lt_of_le_of_ne (Nat.lt_succ_iff.mp hlt) hid)
  · intro id dep hdep
    have hother : dep ≠ id := hwf.acyclic.irrefl (hwf.mem_depList_iff.mp hdep)
    have hlt : dep < g'.len := hwf.depList_lt hdep
    rw [hdeps] at hdep
    by_cases hid : id = g.len
    · rw [hlen] at hlt
      rw [hid] at hother ⊢
      exact Nat.lt_of_le_of_ne (Nat.lt_succ_iff.mp hlt) hother
    · rw [if_neg hid] at hdep
      exact h.earlier id dep hdep

/-- The tasks of a project: the outputs are removed, and then made. -/
def tasksOf (hash : Bytes → String) (b : JavaBackend) (config : JavaProjectConfig) (executable fp : String) : List Task :=
  b.cleanTask config config.buildSystem.tool executable ::
    (b.stages config executable).map fun stage =>
      b.goalTask hash config config.buildSystem.cacheBackend config.buildSystem.tool stage.1 stage.2 fp

/-- The graph of a Maven project. -/
theorem createMavenTasks_waiting {fp : String} {g : BuildGraph Task} (hsystem : config.buildSystem = .maven)
    (hok : b.createMavenTasks hash config fp BuildGraph.new = .ok g) :
    ∃ executable, b.executable config = some executable ∧ Waiting g (tasksOf hash b config executable fp) := by
  unfold createMavenTasks at hok
  split at hok
  · cases hok
  · rename_i maven hmaven
    refine ⟨maven, by rw [executable, hsystem]; exact hmaven, ?_⟩
    rw [tasksOf, stages, hsystem]
    dsimp only at hok ⊢
    split at hok
    · cases hok
    · rename_i hcompile
      have hcompiled := (Waiting.start _).add hcompile
      split at hok
      · cases hok
      · rename_i hpackage
        have hpackaged := hcompiled.add hpackage
        split at hok
        · rename_i hskip
          obtain rfl := Except.ok.inj hok
          rw [if_pos hskip] at hpackaged
          rw [if_pos hskip, if_pos hskip]
          exact hpackaged
        · rename_i hskip
          split at hok
          · cases hok
          · rename_i htest
            obtain rfl := Except.ok.inj hok
            have htested := hpackaged.add htest
            rw [if_neg hskip] at htested
            rw [if_neg hskip, if_neg hskip]
            exact htested

/-- The graph of a Gradle project. -/
theorem createGradleTasks_waiting {fp : String} {g : BuildGraph Task} (hsystem : config.buildSystem = .gradle)
    (hok : b.createGradleTasks hash config fp BuildGraph.new = .ok g) :
    ∃ executable, b.executable config = some executable ∧ Waiting g (tasksOf hash b config executable fp) := by
  unfold createGradleTasks at hok
  split at hok
  · cases hok
  · rename_i gradle hgradle
    refine ⟨gradle, by rw [executable, hsystem]; exact hgradle, ?_⟩
    rw [tasksOf, stages, hsystem]
    dsimp only at hok ⊢
    split at hok
    · cases hok
    · rename_i hbuild
      have hbuilt := (Waiting.start _).add hbuild
      split at hok
      · rename_i hskip
        obtain rfl := Except.ok.inj hok
        rw [if_pos hskip] at hbuilt
        rw [if_pos hskip, if_pos hskip]
        exact hbuilt
      · rename_i hskip
        split at hok
        · cases hok
        · rename_i htest
          obtain rfl := Except.ok.inj hok
          have htested := hbuilt.add htest
          rw [if_neg hskip] at htested
          rw [if_neg hskip, if_neg hskip]
          exact htested

/-- The graph of a project. -/
theorem createTasksFromConfig_waiting {files : ProjectFiles} {g : BuildGraph Task}
    (hok : b.createTasksFromConfig hash config files = .ok g) :
    ∃ executable, b.executable config = some executable ∧
      Waiting g (tasksOf hash b config executable (b.fingerprint hash config files)) := by
  unfold createTasksFromConfig at hok
  cases hsystem : config.buildSystem with
  | maven =>
    rw [hsystem] at hok
    exact createMavenTasks_waiting hsystem hok
  | gradle =>
    rw [hsystem] at hok
    exact createGradleTasks_waiting hsystem hok

/-- There are tasks for every project whose build system was found. -/
theorem exists_createTasksFromConfig {executable : String} (hexecutable : b.executable config = some executable)
    (files : ProjectFiles) : ∃ g, b.createTasksFromConfig hash config files = .ok g := by
  unfold JavaBackend.executable at hexecutable
  unfold createTasksFromConfig
  dsimp only
  cases hsystem : config.buildSystem with
  | maven =>
    rw [hsystem] at hexecutable
    dsimp only at hexecutable ⊢
    unfold createMavenTasks
    rw [hexecutable]
    dsimp only
    have hclean := Waiting.start (b.cleanTask config "mvn" executable)
    obtain ⟨graph, hcompile⟩ := exists_addAfter hclean.wellFormed hclean.nonempty
      (b.goalTask hash config "java/maven" "mvn" "compile"
        (b.command executable ("compile" :: if config.skipTests then ["-DskipTests"] else []))
        (b.fingerprint hash config files))
    have hcompiled := hclean.add hcompile
    obtain ⟨-, -, hlen, -⟩ := addAfter_spec hclean.wellFormed hcompile
    obtain ⟨graph', hpackage⟩ := exists_addAfter hcompiled.wellFormed
      (show (BuildGraph.new.addNode (b.cleanTask config "mvn" executable)).2.len < graph.len by omega)
      (b.goalTask hash config "java/maven" "mvn" "package"
        (b.command executable ("package" :: if config.skipTests then ["-DskipTests"] else []))
        (b.fingerprint hash config files))
    have hpackaged := hcompiled.add hpackage
    obtain ⟨-, -, hlen', -⟩ := addAfter_spec hcompiled.wellFormed hpackage
    obtain ⟨graph'', htest⟩ := exists_addAfter hpackaged.wellFormed
      (show (BuildGraph.new.addNode (b.cleanTask config "mvn" executable)).2.len < graph'.len by omega)
      (b.goalTask hash config "java/maven" "mvn" "test" (b.command executable ["test"]) (b.fingerprint hash config files))
    rw [show (BuildGraph.new.addNode (b.cleanTask config "mvn" executable)).1 = 0 from rfl, hcompile]
    dsimp only
    rw [hpackage]
    dsimp only
    rw [htest]
    split <;> exact ⟨_, rfl⟩
  | gradle =>
    rw [hsystem] at hexecutable
    dsimp only at hexecutable ⊢
    unfold createGradleTasks
    rw [hexecutable]
    dsimp only
    have hclean := Waiting.start (b.cleanTask config "gradle" executable)
    obtain ⟨graph, hbuild⟩ := exists_addAfter hclean.wellFormed hclean.nonempty
      (b.goalTask hash config "java/gradle" "gradle" "build"
        (b.command executable ("build" :: if config.skipTests then ["-x", "test"] else []))
        (b.fingerprint hash config files))
    have hbuilt := hclean.add hbuild
    obtain ⟨-, -, hlen, -⟩ := addAfter_spec hclean.wellFormed hbuild
    obtain ⟨graph', htest⟩ := exists_addAfter hbuilt.wellFormed
      (show (BuildGraph.new.addNode (b.cleanTask config "gradle" executable)).2.len < graph.len by omega)
      (b.goalTask hash config "java/gradle" "gradle" "test" (b.command executable ["test"])
        (b.fingerprint hash config files))
    rw [show (BuildGraph.new.addNode (b.cleanTask config "gradle" executable)).1 = 0 from rfl, hbuild]
    dsimp only
    rw [htest]
    split <;> exact ⟨_, rfl⟩

/-- The tasks can be run in the order in which they were added. -/
theorem Waiting.isTopological {g : BuildGraph Task} {tasks : List Task} (h : Waiting g tasks) :
    g.IsTopological (List.range g.len) where
  nodup := List.nodup_range
  sorted := by
    refine List.pairwise_lt_range.imp fun hlt hedge => ?_
    exact Nat.lt_asymm hlt (h.earlier _ _ (h.wellFormed.mem_depList_iff.mpr hedge))
  closed := by
    intro id
    rw [List.mem_range]
    exact ⟨fun hlt => ⟨hlt, fun dep hdep => List.mem_range.mpr (h.wellFormed.depList_lt hdep)⟩, fun hid => hid.1⟩

/-- In a dependency order the first task comes first, and every other one comes once behind it. -/
theorem Waiting.order {g : BuildGraph Task} {tasks : List Task} (h : Waiting g tasks) {order : List ℕ}
    (horder : g.IsTopological order) :
    ∃ rest, order = 0 :: rest ∧ rest.Nodup ∧ ∀ id, id ∈ rest ↔ 0 < id ∧ id < g.len := by
  have hall : ∀ id : ℕ, id < g.len → id ∈ order := by
    intro id
    induction id using h.wellFormed.edge_wf.induction with
    | _ id ih =>
      intro hlt
      refine (horder.closed id).mpr ⟨hlt, fun dep hdep => ?_⟩
      exact ih dep (h.wellFormed.mem_depList_iff.mp hdep) (h.wellFormed.depList_lt hdep)
  cases order with
  | nil => exact absurd (hall 0 h.nonempty) List.not_mem_nil
  | cons head rest =>
    have hhead := (horder.closed head).mp List.mem_cons_self
    -- The head has no dependency, since it would stand before the head.
    have hnone : g.depList head = [] := by
      rw [List.eq_nil_iff_forall_not_mem]
      intro dep hdep
      have hedge := h.wellFormed.mem_depList_iff.mp hdep
      rcases List.mem_cons.mp (hhead.2 dep hdep) with rfl | hlater
      · exact h.wellFormed.acyclic.irrefl hedge rfl
      · exact (List.pairwise_cons.mp horder.sorted).1 dep hlater hedge
    obtain rfl : head = 0 := by
      by_contra hne
      exact h.waits head (Nat.pos_of_ne_zero hne) hhead.1 hnone
    obtain ⟨hfirst, hrest⟩ := List.nodup_cons.mp horder.nodup
    refine ⟨rest, rfl, hrest, fun id => ⟨fun hmem => ?_, fun ⟨hpos, hlt⟩ => ?_⟩⟩
    · refine ⟨Nat.pos_of_ne_zero fun hzero => hfirst (hzero ▸ hmem), ?_⟩
      exact ((horder.closed id).mp (List.mem_cons_of_mem _ hmem)).1
    · rcases List.mem_cons.mp (hall id hlt) with rfl | hmem
      · exact absurd hpos (Nat.lt_irrefl 0)
      · exact hmem

end JavaBackend

end Forge.Backend.Java
