import Forge.Backend.Identity

/-!
# The tasks of the Zig backend

The dependencies of a Zig project are fetched, and it is built and tested. All three are
cached with one fingerprint: the version of the toolchain, the name of the target, and the
files of the project. Whether the build is a release reaches the command but not the
fingerprint.
-/

namespace Forge.Backend.Zig

open Forge.Common Forge.Graph Forge.Graph.BuildGraph Forge.Project Forge.Fingerprint Forge.Executor

/-- What is built for. -/
inductive ZigTarget where
  | native
  | x86_64Linux
  | x86_64Windows
  | x86_64MacOS
  | aarch64Linux
  | aarch64MacOS
  | wasm32
  | custom (triple : String)
deriving DecidableEq, Repr

/-- The name of a target. -/
def ZigTarget.asStr : ZigTarget → String
  | .native => "native"
  | .x86_64Linux => "x86_64-linux-gnu"
  | .x86_64Windows => "x86_64-windows-gnu"
  | .x86_64MacOS => "x86_64-macos-gnu"
  | .aarch64Linux => "aarch64-linux-gnu"
  | .aarch64MacOS => "aarch64-macos-gnu"
  | .wasm32 => "wasm32-wasi"
  | .custom triple => triple

/-- The configuration of a project. -/
structure ZigProjectConfig where
  projectName : String
  target : ZigTarget
  release : Bool
  runTests : Bool
deriving DecidableEq, Repr

/-- The toolchain that was found. -/
structure ZigToolchain where
  executable : String
  zigVersion : String

/-! ## Fingerprint -/

/-- The extensions of the files that are hashed. -/
def extensions : List String := ["zig", "zon", "c", "h", "cpp", "hpp"]

/-- What is hashed for a project. -/
def zigText (projectDir : Path) (zigVersion : String) (target : ZigTarget) (fs : Tree) : Bytes :=
  utf8Bytes zigVersion ++ utf8Bytes target.asStr ++
    hashDirectoryFiltered (withExtensions extensions defaultExcludedDirs) projectDir (fs.descend projectDir) ++
    ["build.zig", "build.zig.zon", "zig.zon"].flatMap fun name => fileBytes fs (projectDir ++ [utf8Bytes name])

/-- The fingerprint of a project. -/
def computeZigFingerprint (hash : Bytes → String) (projectDir : Path) (zigVersion : String) (target : ZigTarget)
    (files : ProjectFiles) : Option String :=
  hashReadable hash files (zigText projectDir zigVersion target files.tree)

/-! ## Tasks -/

/-- The arguments that choose the target. -/
def targetArgs : ZigTarget → List String
  | .native => []
  | .x86_64Linux => ["-target", "x86_64-linux-gnu"]
  | .x86_64Windows => ["-target", "x86_64-windows-gnu"]
  | .x86_64MacOS => ["-target", "x86_64-macos-gnu"]
  | .aarch64Linux => ["-target", "aarch64-linux-gnu"]
  | .aarch64MacOS => ["-target", "aarch64-macos-gnu"]
  | .wasm32 => ["-target", "wasm32-wasi"]
  | .custom triple => ["-target", triple]

/-- The arguments of a build. -/
def buildArgs (release : Bool) (target : ZigTarget) : List String :=
  ["build"] ++ (if release then ["-Doptimize", "ReleaseFast"] else ["-Doptimize", "Debug"]) ++ targetArgs target

/-- A project: its configuration and its files. -/
structure ZigProject where
  config : ZigProjectConfig
  files : ProjectFiles

/-- The backend with its toolchain, for a project directory. -/
structure ZigBackend where
  toolchain : ZigToolchain
  projectDir : PathBuf

namespace ZigBackend

variable (hash : Bytes → String) (b : ZigBackend) (p : ZigProject)

/-- A command of the toolchain in the project directory. -/
def command (args : List String) : CommandSpec :=
  { CommandSpec.new b.toolchain.executable with args := args, cwd := some (pathString b.projectDir) }

/-- The namespace of the project directory. -/
def space : String := computeNamespace hash (osPath b.projectDir)

/-- The fingerprint of the project. -/
def fingerprint : String :=
  orNoFp (computeZigFingerprint hash (osPath b.projectDir) b.toolchain.zigVersion p.config.target p.files)

/-- A cached task for a mode. -/
def cachedTask (mode : String) (spec : CommandSpec) : Task :=
  { Task.new ("zig " ++ mode ++ " " ++ p.config.projectName) spec.commandLine spec with
    cache := some ⟨formatCacheKey "zig" (b.space hash) mode p.config.projectName, b.fingerprint hash p⟩ }

/-- The tasks of a project. -/
def createTasksFromConfig : Except GraphError (BuildGraph Task) :=
  let (fetch, graph) := BuildGraph.new.addNode (b.cachedTask hash p "fetch" (b.command ["fetch"]))
  match addAfter graph fetch
      (b.cachedTask hash p "build" (b.command (buildArgs p.config.release p.config.target))) with
  | .error e => .error e
  | .ok (build, graph) =>
    if p.config.runTests then
      (addAfter graph build (b.cachedTask hash p "test" (b.command ["test"]))).map (·.2)
    else .ok graph

/-- The commands that are cached, by mode. -/
def stages : List (String × CommandSpec) :=
  [("fetch", b.command ["fetch"]), ("build", b.command (buildArgs p.config.release p.config.target))] ++
    if p.config.runTests then [("test", b.command ["test"])] else []

variable {hash b p}

/-- There always are tasks. -/
theorem exists_createTasksFromConfig : ∃ g, b.createTasksFromConfig hash p = .ok g := by
  unfold createTasksFromConfig
  cases p.config.runTests <;> exact ⟨_, rfl⟩

/-- The tasks do what is cached. -/
theorem createTasksFromConfig_payloads {g : BuildGraph Task} (hok : b.createTasksFromConfig hash p = .ok g) :
    g.nodes.map (·.payload) = [] ++ (b.stages p).map fun stage => b.cachedTask hash p stage.1 stage.2 := by
  unfold createTasksFromConfig at hok
  dsimp only at hok
  split at hok
  · exact absurd hok nofun
  · rename_i build graph hbuild
    rw [addAfter_if_payloads hok, addAfter_payloads hbuild]
    unfold stages
    cases p.config.runTests <;> rfl

/-- The cached tasks of a project. -/
theorem staged {g : BuildGraph Task} (hok : b.createTasksFromConfig hash p = .ok g) :
    Staged "zig" (b.space hash) p.config.projectName (b.fingerprint hash p) (b.stages p) g := by
  refine .of_payloads (createTasksFromConfig_payloads hok) nofun (fun _ _ => rfl) (fun _ _ => rfl) ?_ ?_
  · unfold stages
    cases p.config.runTests <;> simp
  · unfold stages
    cases p.config.runTests <;> simp

end ZigBackend

/-! ## What the arguments tell -/

/-- The arguments for a target tell its name and whether it is the native one. -/
theorem targetArgs_inj {target target' : ZigTarget} :
    targetArgs target = targetArgs target' ↔
      (target = .native ↔ target' = .native) ∧ target.asStr = target'.asStr := by
  cases target <;> cases target' <;> simp [targetArgs, ZigTarget.asStr]

/-- The arguments of a build tell whether it is a release, and the target. -/
theorem buildArgs_inj {release release' : Bool} {target target' : ZigTarget} :
    buildArgs release target = buildArgs release' target' ↔
      release = release' ∧ targetArgs target = targetArgs target' := by
  unfold buildArgs
  cases release <;> cases release' <;> simp

/-- What two projects have to have in common for their cached tasks to run the same commands. -/
structure SameSettings (p p' : ZigProject) : Prop where
  release : p.config.release = p'.config.release
  native : p.config.target = .native ↔ p'.config.target = .native
  target : p.config.target.asStr = p'.config.target.asStr

namespace ZigBackend

/-- Projects with the same name for which the same is hashed have the same settings. -/
def Agree (b : ZigBackend) (p p' : ZigProject) : Prop :=
  p.config.projectName = p'.config.projectName →
    SameHashed p.files p'.files (zigText (osPath b.projectDir) b.toolchain.zigVersion p.config.target p.files.tree)
      (zigText (osPath b.projectDir) b.toolchain.zigVersion p'.config.target p'.files.tree) → SameSettings p p'

variable {b : ZigBackend} {p p' : ZigProject}

/-- Commands of the toolchain are the same when their arguments are. -/
theorem sameCommand_command_iff {args args' : List String} :
    SameCommand (b.command args) (b.command args') ↔ args = args' := by
  constructor
  · exact fun h => h.args
  · rintro rfl
    exact ⟨rfl, rfl, rfl, rfl⟩

/-- The modes of a project. -/
theorem mem_stages_iff {mode : String} {spec : CommandSpec} :
    (mode, spec) ∈ b.stages p ↔ (mode = "fetch" ∧ spec = b.command ["fetch"]) ∨
      (mode = "build" ∧ spec = b.command (buildArgs p.config.release p.config.target)) ∨
        (mode = "test" ∧ p.config.runTests = true ∧ spec = b.command ["test"]) := by
  unfold stages
  cases p.config.runTests <;> simp

/-- The commands that two projects both have are the same exactly when the settings are. -/
theorem sameSettings_iff :
    (∀ mode spec spec', (mode, spec) ∈ b.stages p → (mode, spec') ∈ b.stages p' → SameCommand spec spec') ↔
      SameSettings p p' := by
  constructor
  · intro hsame
    have hbuild := hsame "build" _ _ (mem_stages_iff.mpr (.inr (.inl ⟨rfl, rfl⟩)))
      (mem_stages_iff.mpr (.inr (.inl ⟨rfl, rfl⟩)))
    obtain ⟨hrelease, htarget⟩ := buildArgs_inj.mp (sameCommand_command_iff.mp hbuild)
    obtain ⟨hnative, hname⟩ := targetArgs_inj.mp htarget
    exact ⟨hrelease, hnative, hname⟩
  · rintro ⟨hrelease, hnative, hname⟩ mode spec spec' hspec hspec'
    have hbuild : buildArgs p.config.release p.config.target = buildArgs p'.config.release p'.config.target :=
      buildArgs_inj.mpr ⟨hrelease, targetArgs_inj.mpr ⟨hnative, hname⟩⟩
    rcases mem_stages_iff.mp hspec with ⟨rfl, rfl⟩ | ⟨rfl, rfl⟩ | ⟨rfl, -, rfl⟩
    · rcases mem_stages_iff.mp hspec' with ⟨-, rfl⟩ | ⟨hmode, -⟩ | ⟨hmode, -⟩
      · exact sameCommand_command_iff.mpr rfl
      · exact absurd hmode (by decide)
      · exact absurd hmode (by decide)
    · rcases mem_stages_iff.mp hspec' with ⟨hmode, -⟩ | ⟨-, rfl⟩ | ⟨hmode, -⟩
      · exact absurd hmode (by decide)
      · exact sameCommand_command_iff.mpr hbuild
      · exact absurd hmode (by decide)
    · rcases mem_stages_iff.mp hspec' with ⟨hmode, -⟩ | ⟨hmode, -⟩ | ⟨-, -, rfl⟩
      · exact absurd hmode (by decide)
      · exact absurd hmode (by decide)
      · exact sameCommand_command_iff.mpr rfl

/-- The identities of tasks tell their commands exactly when projects with the same name for which the same
is hashed have the same settings. -/
theorem identified_iff {hash : Bytes → String} (hhash : HexHash hash) {g g' : BuildGraph Task}
    (hok : b.createTasksFromConfig hash p = .ok g) (hok' : b.createTasksFromConfig hash p' = .ok g') :
    Identified g g' ↔ b.Agree p p' := by
  rw [(staged hok).identified_iff (staged hok'), sameSettings_iff]
  refine imp_congr_right fun _ => imp_congr_left ?_
  exact orNoFp_eq_iff hhash

end ZigBackend

end Forge.Backend.Zig
