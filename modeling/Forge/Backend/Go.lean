import Forge.Backend.Identity

/-!
# The tasks of the Go backend

A Go project is vetted, built, tested and benchmarked. The last three are cached under the
mode and the name of the project, all with one fingerprint: the version of the toolchain,
the tags, and the files of the project. Flags, the package path, the output and the
environment reach the commands but not the fingerprint.
-/

namespace Forge.Backend.Go

open Forge.Common Forge.Graph Forge.Graph.BuildGraph Forge.Project Forge.Fingerprint Forge.Executor

/-- The configuration of a project. -/
structure GoProjectConfig where
  name : String
  packagePath : String
  tags : List String
  ldflags : Option String
  gcflags : Option String
  runTests : Bool
  race : Bool
  coverage : Bool
  runBenchmarks : Bool
  outputBinary : Option String
  env : StringMap

/-- The toolchain that was found. -/
structure GoToolchain where
  executable : String
  version : String

/-! ## Fingerprint -/

/-- What is hashed for a project. -/
def goText (projectDir : Path) (toolchainVersion : String) (tags : List String) (fs : Tree) : Bytes :=
  utf8Bytes toolchainVersion ++ utf8Bytes "\ntags:\n" ++ tags.flatMap (fun tag => utf8Bytes tag ++ utf8Bytes "\n") ++
    fileBytes fs (projectDir ++ [utf8Bytes "go.mod"]) ++ fileBytes fs (projectDir ++ [utf8Bytes "go.sum"]) ++
    fileBytes fs (projectDir ++ [utf8Bytes "go.work"]) ++
    hashDirectoryFiltered (withExtensions ["go"] defaultExcludedDirs) projectDir (fs.descend projectDir)

/-- The fingerprint of a project. -/
def computeGoFingerprint (hash : Bytes → String) (projectDir : Path) (toolchainVersion : String) (tags : List String)
    (files : ProjectFiles) : Option String :=
  hashReadable hash files (goText projectDir toolchainVersion tags files.tree)

/-! ## Commands -/

namespace GoToolchain

/-- The arguments that choose files by tags. -/
def tagArgs (tags : List String) : List String :=
  if tags.isEmpty then [] else ["-tags", ",".intercalate tags]

/-- The arguments of a build. -/
def buildArgs (packagePath : String) (outputBinary : Option String) (tags : List String)
    (ldflags gcflags : Option String) : List String :=
  ["build"] ++ (match outputBinary with
      | none => []
      | some out => ["-o", out]) ++ tagArgs tags ++
    (match ldflags with
      | none => []
      | some ld => ["-ldflags", ld]) ++
    (match gcflags with
      | none => []
      | some gc => ["-gcflags", gc]) ++ [packagePath]

/-- The arguments of a test run. -/
def testArgs (packagePath : String) (tags : List String) (race coverage : Bool) : List String :=
  ["test"] ++ (if race then ["-race"] else []) ++ (if coverage then ["-cover"] else []) ++ tagArgs tags ++ [packagePath]

/-- The arguments of a benchmark run. -/
def benchArgs (packagePath : String) (tags : List String) : List String :=
  ["test", "-bench=.", "-run=^$", "-benchmem"] ++ tagArgs tags ++ [packagePath]

/-- The arguments of a vet run. -/
def vetArgs (packagePath : String) : List String :=
  ["vet", packagePath]

end GoToolchain

/-- The path of a file in a directory. An absolute name stands for itself. -/
def joinPath (dir name : String) : String :=
  if name.startsWith "/" then name else if dir.endsWith "/" then dir ++ name else dir ++ "/" ++ name

/-- A project: its configuration, where its output goes, and its files. -/
structure GoProject where
  config : GoProjectConfig
  outputDir : String
  files : ProjectFiles

/-- The backend with its toolchain, for a project directory. -/
structure GoBackend where
  toolchain : GoToolchain
  projectDir : PathBuf

/-- Where the binary of a project goes. -/
def GoProject.outPath (p : GoProject) : String :=
  p.config.outputBinary.getD (joinPath p.outputDir p.config.name)

namespace GoBackend

variable (hash : Bytes → String) (b : GoBackend) (p : GoProject)

/-- A command of the toolchain in the project directory. -/
def command (args : List String) : CommandSpec :=
  { CommandSpec.new b.toolchain.executable with
    args := args, cwd := some (pathString b.projectDir), env := p.config.env.entries }

/-- The command that vets. -/
def vetSpec : CommandSpec :=
  b.command p (GoToolchain.vetArgs p.config.packagePath)

/-- The command that builds. -/
def buildSpec : CommandSpec :=
  b.command p
    (GoToolchain.buildArgs p.config.packagePath (some p.outPath) p.config.tags p.config.ldflags p.config.gcflags)

/-- The command that tests. -/
def testSpec : CommandSpec :=
  b.command p (GoToolchain.testArgs p.config.packagePath p.config.tags p.config.race p.config.coverage)

/-- The command that benchmarks. -/
def benchSpec : CommandSpec :=
  b.command p (GoToolchain.benchArgs p.config.packagePath p.config.tags)

/-- The namespace of the project directory. -/
def space : String := computeNamespace hash (osPath b.projectDir)

/-- The fingerprint of the project. -/
def fingerprint : String :=
  orNoFp (computeGoFingerprint hash (osPath b.projectDir) b.toolchain.version p.config.tags p.files)

/-- A cached task for a mode. -/
def cachedTask (mode : String) (spec : CommandSpec) : Task :=
  { Task.new ("go " ++ mode ++ " " ++ p.config.name) spec.commandLine spec with
    cache := some ⟨formatCacheKey "go" (b.space hash) mode p.config.name, b.fingerprint hash p⟩ }

/-- The tasks of a project. -/
def createTasksFromConfig : Except GraphError (BuildGraph Task) :=
  let vetTask := Task.new ("go vet " ++ p.config.name) (b.vetSpec p).commandLine (b.vetSpec p)
  let (vet, graph) := BuildGraph.new.addNode vetTask
  match addAfter graph vet (b.cachedTask hash p "build" (b.buildSpec p)) with
  | .error e => .error e
  | .ok (build, graph) =>
    match (if p.config.runTests then (addAfter graph build (b.cachedTask hash p "test" (b.testSpec p))).map (·.2)
      else .ok graph) with
    | .error e => .error e
    | .ok graph =>
      if p.config.runBenchmarks then (addAfter graph build (b.cachedTask hash p "bench" (b.benchSpec p))).map (·.2)
      else .ok graph

/-- The commands that are cached, by mode. -/
def stages : List (String × CommandSpec) :=
  [("build", b.buildSpec p)] ++ (if p.config.runTests then [("test", b.testSpec p)] else []) ++
    if p.config.runBenchmarks then [("bench", b.benchSpec p)] else []

variable {hash b p}

/-- There always are tasks. -/
theorem exists_createTasksFromConfig : ∃ g, b.createTasksFromConfig hash p = .ok g := by
  unfold createTasksFromConfig
  cases p.config.runTests <;> cases p.config.runBenchmarks <;> exact ⟨_, rfl⟩

/-- The tasks vet, and do what is cached. -/
theorem createTasksFromConfig_payloads {g : BuildGraph Task} (hok : b.createTasksFromConfig hash p = .ok g) :
    g.nodes.map (·.payload) =
      [Task.new ("go vet " ++ p.config.name) (b.vetSpec p).commandLine (b.vetSpec p)] ++
        (b.stages p).map fun stage => b.cachedTask hash p stage.1 stage.2 := by
  unfold createTasksFromConfig at hok
  dsimp only at hok
  split at hok
  · exact absurd hok nofun
  · rename_i build graph hbuild
    split at hok
    · exact absurd hok nofun
    · rename_i graph' htest
      rw [addAfter_if_payloads hok, addAfter_if_payloads htest, addAfter_payloads hbuild]
      unfold stages
      cases p.config.runTests <;> cases p.config.runBenchmarks <;> rfl

/-- The cached tasks of a project. -/
theorem staged {g : BuildGraph Task} (hok : b.createTasksFromConfig hash p = .ok g) :
    Staged "go" (b.space hash) p.config.name (b.fingerprint hash p) (b.stages p) g := by
  refine .of_payloads (createTasksFromConfig_payloads hok) ?_ (fun _ _ => rfl) (fun _ _ => rfl) ?_ ?_
  · intro task htask
    obtain rfl := List.mem_singleton.mp htask
    rfl
  · unfold stages
    cases p.config.runTests <;> cases p.config.runBenchmarks <;> simp
  · unfold stages
    cases p.config.runTests <;> cases p.config.runBenchmarks <;> simp

end GoBackend

/-! ## What the arguments tell -/

namespace GoToolchain

/-- Optional flags and the package path are read back from the arguments of a build. -/
theorem buildArgs_inj {packagePath packagePath' out out' : String} {tags tags' : List String}
    {ldflags ldflags' gcflags gcflags' : Option String} :
    buildArgs packagePath (some out) tags ldflags gcflags = buildArgs packagePath' (some out') tags' ldflags' gcflags' ↔
      packagePath = packagePath' ∧ out = out' ∧ tagArgs tags = tagArgs tags' ∧ ldflags = ldflags' ∧
        gcflags = gcflags' := by
  constructor
  · intro h
    unfold buildArgs tagArgs at *
    cases tags <;> cases tags' <;> cases ldflags <;> cases ldflags' <;> cases gcflags <;> cases gcflags' <;>
      simp at h ⊢ <;> tauto
  · rintro ⟨rfl, rfl, htags, rfl, rfl⟩
    unfold buildArgs
    rw [htags]

/-- With the same tags and package path the switches are read back from the arguments of a test run. -/
theorem testArgs_inj {packagePath : String} {tags tags' : List String} {race race' coverage coverage' : Bool}
    (htags : tagArgs tags = tagArgs tags') :
    testArgs packagePath tags race coverage = testArgs packagePath tags' race' coverage' ↔
      race = race' ∧ coverage = coverage' := by
  unfold testArgs
  rw [htags, List.append_cancel_right_eq, List.append_cancel_right_eq]
  cases race <;> cases race' <;> cases coverage <;> cases coverage' <;> simp

end GoToolchain

/-- What two projects have to have in common for their cached tasks to run the same commands. -/
structure SameSettings (p p' : GoProject) : Prop where
  packagePath : p.config.packagePath = p'.config.packagePath
  outPath : p.outPath = p'.outPath
  tags : GoToolchain.tagArgs p.config.tags = GoToolchain.tagArgs p'.config.tags
  ldflags : p.config.ldflags = p'.config.ldflags
  gcflags : p.config.gcflags = p'.config.gcflags
  env : p.config.env = p'.config.env
  switches : p.config.runTests = true → p'.config.runTests = true →
    p.config.race = p'.config.race ∧ p.config.coverage = p'.config.coverage

namespace GoBackend

/-- Projects with the same name for which the same is hashed have the same settings. -/
def Agree (b : GoBackend) (p p' : GoProject) : Prop :=
  p.config.name = p'.config.name →
    SameHashed p.files p'.files (goText (osPath b.projectDir) b.toolchain.version p.config.tags p.files.tree)
      (goText (osPath b.projectDir) b.toolchain.version p'.config.tags p'.files.tree) → SameSettings p p'

variable {b : GoBackend} {p p' : GoProject}

/-- Commands of the toolchain are the same when their arguments and environments are. -/
theorem sameCommand_command_iff {args args' : List String} :
    SameCommand (b.command p args) (b.command p' args') ↔ args = args' ∧ p.config.env = p'.config.env := by
  constructor
  · rintro ⟨-, hargs, henv, -⟩
    refine ⟨hargs, ?_⟩
    rw [StringMap.mk.injEq]
    exact henv
  · rintro ⟨rfl, henv⟩
    exact ⟨rfl, rfl, congrArg StringMap.entries henv, rfl⟩

/-- The modes of a project. -/
theorem mem_stages_iff {mode : String} {spec : CommandSpec} :
    (mode, spec) ∈ b.stages p ↔ (mode = "build" ∧ spec = b.buildSpec p) ∨
      (mode = "test" ∧ p.config.runTests = true ∧ spec = b.testSpec p) ∨
        (mode = "bench" ∧ p.config.runBenchmarks = true ∧ spec = b.benchSpec p) := by
  unfold stages
  cases p.config.runTests <;> cases p.config.runBenchmarks <;> simp

/-- The commands that two projects both have are the same exactly when the settings are. -/
theorem sameSettings_iff :
    (∀ mode spec spec', (mode, spec) ∈ b.stages p → (mode, spec') ∈ b.stages p' → SameCommand spec spec') ↔
      SameSettings p p' := by
  constructor
  · intro hsame
    have hbuild : SameCommand (b.buildSpec p) (b.buildSpec p') :=
      hsame "build" _ _ (mem_stages_iff.mpr (.inl ⟨rfl, rfl⟩)) (mem_stages_iff.mpr (.inl ⟨rfl, rfl⟩))
    obtain ⟨hargs, henv⟩ := sameCommand_command_iff.mp hbuild
    obtain ⟨hpackagePath, hout, htags, hldflags, hgcflags⟩ := GoToolchain.buildArgs_inj.mp hargs
    refine ⟨hpackagePath, hout, htags, hldflags, hgcflags, henv, fun htests htests' => ?_⟩
    have htest : SameCommand (b.testSpec p) (b.testSpec p') :=
      hsame "test" _ _ (mem_stages_iff.mpr (.inr (.inl ⟨rfl, htests, rfl⟩)))
        (mem_stages_iff.mpr (.inr (.inl ⟨rfl, htests', rfl⟩)))
    have htestArgs := (sameCommand_command_iff.mp htest).1
    rw [hpackagePath] at htestArgs
    exact (GoToolchain.testArgs_inj htags).mp htestArgs
  · rintro ⟨hpackagePath, hout, htags, hldflags, hgcflags, henv, hswitches⟩ mode spec spec' hspec hspec'
    rcases mem_stages_iff.mp hspec with ⟨rfl, rfl⟩ | ⟨rfl, htests, rfl⟩ | ⟨rfl, -, rfl⟩
    · rcases mem_stages_iff.mp hspec' with ⟨-, rfl⟩ | ⟨hmode, -⟩ | ⟨hmode, -⟩
      · exact sameCommand_command_iff.mpr
          ⟨GoToolchain.buildArgs_inj.mpr ⟨hpackagePath, hout, htags, hldflags, hgcflags⟩, henv⟩
      · exact absurd hmode (by decide)
      · exact absurd hmode (by decide)
    · rcases mem_stages_iff.mp hspec' with ⟨hmode, -⟩ | ⟨-, htests', rfl⟩ | ⟨hmode, -⟩
      · exact absurd hmode (by decide)
      · refine sameCommand_command_iff.mpr ⟨?_, henv⟩
        rw [hpackagePath]
        exact (GoToolchain.testArgs_inj htags).mpr (hswitches htests htests')
      · exact absurd hmode (by decide)
    · rcases mem_stages_iff.mp hspec' with ⟨hmode, -⟩ | ⟨hmode, -⟩ | ⟨-, -, rfl⟩
      · exact absurd hmode (by decide)
      · exact absurd hmode (by decide)
      · refine sameCommand_command_iff.mpr ⟨?_, henv⟩
        unfold GoToolchain.benchArgs
        rw [hpackagePath, htags]

/-- The identities of tasks tell their commands exactly when projects with the same name for which the same
is hashed have the same settings. -/
theorem identified_iff {hash : Bytes → String} (hhash : HexHash hash) {g g' : BuildGraph Task}
    (hok : b.createTasksFromConfig hash p = .ok g) (hok' : b.createTasksFromConfig hash p' = .ok g') :
    Identified g g' ↔ b.Agree p p' := by
  rw [(staged hok).identified_iff (staged hok'), sameSettings_iff]
  refine imp_congr_right fun _ => imp_congr_left ?_
  exact orNoFp_eq_iff hhash

end GoBackend

end Forge.Backend.Go
