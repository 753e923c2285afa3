import Forge.Backend.Identity
import Forge.Backend.TaskDagOrder
import Forge.Common.Unfoldings

/-!
# The tasks of the TypeScript backend

The tasks of a project are configured by name, with a command, arguments and the names of
the tasks that they wait for. The fingerprint of a task is made of a fingerprint of the
project, the name of the task, and the fingerprints of the tasks that it waits for. The
command and the arguments are in it only as far as the files that are hashed say them.
-/

namespace Forge.Backend.Ts

open Forge.Common Forge.Graph Forge.Graph.BuildGraph Forge.Project Forge.Fingerprint Forge.Executor

/-- A package manager. -/
inductive PackageManager where
  | npm
  | pnpm
  | yarn
  | bun
deriving DecidableEq, Repr

/-- The program of a package manager. -/
def PackageManager.executable : PackageManager → String
  | .npm => "npm"
  | .pnpm => "pnpm"
  | .yarn => "yarn"
  | .bun => "bun"

/-- A configured task. -/
structure TsTaskSpec where
  name : String
  command : Option String
  args : List String
  dependsOn : List String
deriving DecidableEq, Repr

/-- The configuration of a project. -/
structure TsProjectConfig where
  name : String
  packageManager : Option PackageManager
  tasks : List TsTaskSpec
  sourceDirs : List String
deriving DecidableEq, Repr

/-- Why there are no tasks. -/
inductive Failure where
  | config (message : String)
  | io
  | graph (e : GraphError)
  | panic (message : String)
deriving DecidableEq, Repr

/-! ## Fingerprint -/

/-- The files of the project directory that configure it. -/
def configNames : List String :=
  ["package.json", "tsconfig.json", "pnpm-lock.yaml", "package-lock.json", "yarn.lock", "bun.lockb", "bun.lock",
    "fish.ts.json", "vite.config.ts", "vite.config.js", "next.config.js", "next.config.mjs", "next.config.ts"]

/-- The extensions of the files that are hashed. -/
def extensions : List String :=
  ["ts", "tsx", "js", "jsx", "mjs", "cjs", "json", "css", "scss", "html", "vue", "svelte"]

/-- Follow components from a directory. Only a directory can be left for a component. -/
def follow (fs : Tree) : List OsString → Path → Option Path
  | [], path => some path
  | name :: names, path =>
    if (fs.descend path).isDir then
      follow fs names (if name = [] ∨ name = [46] then path else if name = [46, 46] then path.dropLast else path ++ [name])
    else none

/-- Where a source directory is. -/
def joinDir (fs : Tree) (root : Path) (dir : String) : Option Path :=
  follow fs ((utf8Bytes dir).splitOn 47) (if (utf8Bytes dir).head? = some 47 then [] else root)

/-- Whether there is something at a path. -/
def pathExists (fs : Tree) (path : Path) : Bool :=
  match fs.descend path with
  | .other => false
  | _ => true

/-- The directories that are walked over: those of the sources that are there, or the whole project. -/
def dirsToScan (fs : Tree) (root : Path) (sourceDirs : List String) : List Path :=
  let dirs := sourceDirs.filterMap fun dir => (joinDir fs root dir).filter (pathExists fs)
  if sourceDirs.isEmpty || dirs.isEmpty then [root] else dirs

/-- What is hashed for a project. -/
def tsText (root : Path) (sourceDirs : List String) (fs : Tree) : Bytes :=
  (configNames.flatMap fun name =>
    match isFile fs (root ++ [utf8Bytes name]) with
    | none => []
    | some content => utf8Bytes name ++ content) ++
  (dirsToScan fs root sourceDirs).flatMap fun dir =>
    hashDirectoryFiltered (withExtensions extensions defaultExcludedDirs) dir (fs.descend dir)

/-- The fingerprint of a project. -/
def computeTsFingerprint (hash : Bytes → String) (root : Path) (sourceDirs : List String) (files : ProjectFiles) :
    Option String :=
  hashReadable hash files (tsText root sourceDirs files.tree)

/-! ## Tasks -/

/-- A project: its configuration and its files. -/
structure TsProject where
  config : TsProjectConfig
  files : ProjectFiles

/-- The program that a task runs. -/
def TsProject.program (p : TsProject) (task : TsTaskSpec) : String :=
  task.command.getD (p.config.packageManager.getD .npm).executable

/-- What was made of the tasks that were taken: their nodes and fingerprints by name, and the graph. -/
structure Made where
  nodeMap : List (String × NodeId)
  depFps : List (String × String)
  graph : BuildGraph Task

/-- The fingerprints of the tasks that a task waits for. -/
def memberFps (depFps : List (String × String)) (name : String) : List String → Except Failure (List String)
  | [] => .ok []
  | dep :: deps =>
    match depFps.lookup dep with
    | none => .error (.config ("task `" ++ name ++ "` depends on unknown task `" ++ dep ++ "`"))
    | some fp => (memberFps depFps name deps).map (fp :: ·)

section Tasks

variable (hash : Bytes → String) (projectDir : PathBuf) (p : TsProject)

/-- The command of a task. -/
def buildCommand (task : TsTaskSpec) : CommandSpec :=
  { CommandSpec.new (p.program task) with args := task.args, cwd := some (pathString projectDir) }

/-- The key of a task. -/
def taskKey (task : TsTaskSpec) : String :=
  formatCacheKey "ts" (computeNamespace hash (osPath projectDir)) "task" task.name

/-- The fingerprint of a task. -/
def taskFingerprint (baseFp name : String) (memberFps : List String) : String :=
  combineFingerprints hash ("ts:" ++ baseFp ++ ":" ++ name) memberFps

/-- The task with a fingerprint. -/
def makeTask (task : TsTaskSpec) (fingerprint : String) : Task :=
  let spec := buildCommand projectDir p task
  { Task.new (p.config.name ++ ":" ++ task.name) spec.commandLine spec with
    cache := some ⟨taskKey hash projectDir task, fingerprint⟩ }

/-- Make the tasks in order. -/
def addTasks (baseFp : String) : List ℕ → Made → Except Failure Made
  | [], made => .ok made
  | idx :: order, made =>
    match p.config.tasks[idx]? with
    | none => .error (.panic "index out of bounds")
    | some task =>
      match memberFps made.depFps task.name task.dependsOn with
      | .error e => .error e
      | .ok fps =>
        let fp := taskFingerprint hash baseFp task.name fps
        let (node, graph) := made.graph.addNode (makeTask hash projectDir p task fp)
        addTasks baseFp order ⟨(task.name, node) :: made.nodeMap, (task.name, fp) :: made.depFps, graph⟩

/-- Insert what a task waits for. -/
def addDeps (nodeMap : List (String × NodeId)) (node : NodeId) : List String → BuildGraph Task →
    Except Failure (BuildGraph Task)
  | [], graph => .ok graph
  | dep :: deps, graph =>
    match nodeMap.lookup dep with
    | none => .error (.panic "no entry found for key")
    | some depNode =>
      match graph.addDependency depNode node with
      | (.error e, _) => .error (.graph e)
      | (.ok (), graph) => addDeps nodeMap node deps graph

/-- Insert what all tasks wait for. -/
def addEdges (nodeMap : List (String × NodeId)) : List TsTaskSpec → BuildGraph Task →
    Except Failure (BuildGraph Task)
  | [], graph => .ok graph
  | task :: tasks, graph =>
    match nodeMap.lookup task.name with
    | none => .error (.panic "no entry found for key")
    | some node =>
      match addDeps nodeMap node task.dependsOn graph with
      | .error e => .error e
      | .ok graph => addEdges nodeMap tasks graph

/-- The tasks of a project. -/
def buildTaskGraph : Except Failure (BuildGraph Task) :=
  match computeTsFingerprint hash (osPath projectDir) p.config.sourceDirs p.files with
  | none => .error .io
  | some baseFp =>
    match TaskDag.resolveDagOrder (·.name) (·.dependsOn) p.config.tasks with
    | .error e => .error (.config e)
    | .ok order =>
      match addTasks hash projectDir p baseFp order ⟨[], [], BuildGraph.new⟩ with
      | .error e => .error e
      | .ok made => addEdges made.nodeMap p.config.tasks made.graph

end Tasks

end Forge.Backend.Ts
