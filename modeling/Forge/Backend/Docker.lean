import Forge.Backend.Identity

/-!
# The tasks of the Docker backend

Every instruction of a Dockerfile that changes its image becomes a build of the image of
the stage that it belongs to. All tasks have one key, the path of the Dockerfile, and one
fingerprint: the Dockerfile, the files of the build context, the build arguments and the
target. The images of the stages are in the commands only. Paths are absolute.
-/

namespace Forge.Backend.Docker

open Forge.Common Forge.Graph Forge.Graph.BuildGraph Forge.Project Forge.Fingerprint Forge.Executor

/-- The configuration of a project. -/
structure DockerProjectConfig where
  dockerfilePath : Option PathBuf
  contextPath : PathBuf
  buildArgs : StringMap
  target : Option String

/-- A project: its configuration and its files. -/
structure DockerProject where
  config : DockerProjectConfig
  files : ProjectFiles

/-- Why there are no tasks. -/
inductive Failure where
  | message (text : String)
  | io
deriving DecidableEq, Repr

/-! ## Fingerprint -/

/-- The filter of a build context. -/
def contextFilter : DirectoryFilter where
  isExcludedDir := fun name => listed defaultExcludedDirs name || listed [".dockerignore"] name
  isAllowedFile := fun _ => true

/-- What is hashed for a project. -/
def dockerText (config : DockerProjectConfig) (fs : Tree) : Bytes :=
  (match config.dockerfilePath with
    | none => []
    | some dockerfile => fileBytes fs (osPath dockerfile)) ++
  hashDirectoryFiltered contextFilter (osPath config.contextPath) (fs.descend (osPath config.contextPath)) ++
  config.buildArgs.entries.flatMap (fun (key, value) => utf8Bytes key ++ utf8Bytes value) ++
  match config.target with
  | none => []
  | some target => utf8Bytes target

/-! ## Dockerfiles -/

/-- What a line of a Dockerfile does. -/
inductive DockerLine where
  | skip
  | stage (name : String)
  | instruction
deriving DecidableEq, Repr

/-- The text between the first and the second occurrence of another text. -/
def secondPiece (sep s : List Char) : Option (List Char) :=
  (splitOnceText sep s).map fun (_, rest) =>
    match splitOnceText sep rest with
    | none => rest
    | some (piece, _) => piece

/-- Read a line without white space around it. -/
def readLine (line : List Char) : DockerLine :=
  if line.isEmpty || line.head? = some '#' then .skip
  else
    match stripPrefix "FROM ".toList line with
    | some stage =>
      match secondPiece " AS ".toList stage with
      | some asStage => .stage (String.ofList (trim asStage))
      | none => .skip
    | none =>
      if (stripPrefix "RUN ".toList line).isSome || (stripPrefix "COPY ".toList line).isSome ||
          (stripPrefix "ADD ".toList line).isSome then .instruction
      else .skip

/-- The lines of a file. Carriage returns at their ends are white space, and a last empty line is skipped. -/
def dockerLines (content : String) : List DockerLine :=
  (content.toList.splitOn '\n').map fun line => readLine (trim line)

/-- What was read of a Dockerfile: the stages before, the current one, and its commands. -/
structure ParseState where
  stages : List (String × List CommandSpec)
  currentStage : String
  currentCommands : List CommandSpec

/-- Close the current stage if it has commands. -/
def ParseState.close (s : ParseState) : List (String × List CommandSpec) :=
  if s.currentCommands.isEmpty then s.stages else s.stages ++ [(s.currentStage, s.currentCommands)]

section Tasks

variable (hash : Bytes → String) (dockerPath : String) (p : DockerProject)

/-- The command that builds an image in the context. -/
def buildCommand (image : String) : CommandSpec :=
  let dockerCmd := "build -t " ++ image ++ " " ++ pathString p.config.contextPath
  { CommandSpec.new dockerPath with args := (splitWhitespace dockerCmd.toList).map String.ofList }

/-- Read a line of a Dockerfile. -/
def parseLine (s : ParseState) : DockerLine → ParseState
  | .skip => s
  | .stage name => ⟨s.close, name, []⟩
  | .instruction =>
    { s with currentCommands := s.currentCommands ++ [buildCommand dockerPath p ("stage:" ++ s.currentStage)] }

/-- The stages of a Dockerfile with their commands. Without commands there is one for everything. -/
def parseDockerfile : Except Failure (List (String × List CommandSpec)) :=
  match p.config.dockerfilePath with
  | none => .error (.message "No Dockerfile specified")
  | some dockerfile =>
    match (isFile p.files.tree (osPath dockerfile)).bind fromUtf8 with
    | none => .error .io
    | some content =>
      let stages := ((dockerLines content).foldl (parseLine dockerPath p) ⟨[], "default", []⟩).close
      .ok (if stages.isEmpty then [("default", [buildCommand dockerPath p "fish:latest"])] else stages)

/-- The task of a command of a stage. -/
def makeTask (fingerprint : String) (stagesCount : ℕ) (stage : String) (spec : CommandSpec) : Task :=
  { Task.new ("docker:build:" ++ stage) ("Build Docker stage: " ++ stage) spec with
    cache := p.config.dockerfilePath.map fun dockerfile => ⟨"docker:" ++ pathString dockerfile, fingerprint⟩
    artifacts := if stage = "final" ∨ stagesCount = 1 then [stage ++ ".tar"] else [] }

/-- Add the tasks of commands. -/
def addTasks : List Task → BuildGraph Task → BuildGraph Task
  | [], graph => graph
  | task :: tasks, graph => addTasks tasks (graph.addNode task).2

/-- The tasks of a project. -/
def buildTaskGraph : Except Failure (BuildGraph Task) :=
  match hashReadable hash p.files (dockerText p.config p.files.tree) with
  | none => .error .io
  | some fingerprint =>
    match parseDockerfile dockerPath p with
    | .error e => .error e
    | .ok stages =>
      .ok (addTasks (stages.flatMap fun (stage, commands) =>
        commands.map (makeTask p fingerprint stages.length stage)) BuildGraph.new)

end Tasks

/-! ## The images of a Dockerfile -/

/-- The stages of the instructions of a Dockerfile. -/
def instructionStages : String → List DockerLine → List String
  | _, [] => []
  | stage, .skip :: lines => instructionStages stage lines
  | _, .stage name :: lines => instructionStages name lines
  | stage, .instruction :: lines => stage :: instructionStages stage lines

/-- The images that the instructions of a Dockerfile build. -/
def imagesOf (content : String) : List String :=
  let stages := instructionStages "default" (dockerLines content)
  if stages.isEmpty then ["fish:latest"] else stages.map ("stage:" ++ ·)

/-- The images of a project. -/
def DockerProject.images (p : DockerProject) : List String :=
  match (p.config.dockerfilePath.bind fun dockerfile => isFile p.files.tree (osPath dockerfile)).bind fromUtf8 with
  | none => []
  | some content => imagesOf content

section Images

variable {hash : Bytes → String} {dockerPath : String} {p p' : DockerProject}

/-- The commands of the stages that were read. -/
def ParseState.commands (s : ParseState) : List CommandSpec :=
  s.stages.flatMap (·.2) ++ s.currentCommands

/-- Closing a stage keeps the commands. -/
theorem ParseState.flatMap_close (s : ParseState) : s.close.flatMap (·.2) = s.commands := by
  unfold ParseState.close ParseState.commands
  cases hcommands : s.currentCommands <;> simp

/-- Reading lines adds the commands of their instructions. -/
theorem commands_foldl_parseLine (lines : List DockerLine) (s : ParseState) :
    (lines.foldl (parseLine dockerPath p) s).commands = s.commands ++
      (instructionStages s.currentStage lines).map fun stage => buildCommand dockerPath p ("stage:" ++ stage) := by
  induction lines generalizing s with
  | nil => exact (List.append_nil _).symm
  | cons line lines ih =>
    rw [List.foldl_cons, ih]
    cases line with
    | skip => rfl
    | stage name =>
      have hclosed : (parseLine dockerPath p s (.stage name)).commands = s.commands := by
        rw [← s.flatMap_close]
        exact List.append_nil _
      rw [hclosed]
      rfl
    | instruction => simp [parseLine, ParseState.commands, instructionStages]

/-- Closing a stage adds no stage without commands. -/
theorem ParseState.close_ne_nil {s : ParseState} (h : ∀ stage ∈ s.stages, stage.2 ≠ []) :
    ∀ stage ∈ s.close, stage.2 ≠ [] := by
  unfold ParseState.close
  cases hcommands : s.currentCommands with
  | nil => simpa using h
  | cons command commands =>
    intro stage hstage
    rcases List.mem_append.mp hstage with hstage | hstage
    · exact h stage hstage
    · rw [List.mem_singleton.mp hstage]
      exact List.cons_ne_nil command commands

/-- Reading lines adds no stage without commands. -/
theorem foldl_parseLine_ne_nil (lines : List DockerLine) {s : ParseState} (h : ∀ stage ∈ s.stages, stage.2 ≠ []) :
    ∀ stage ∈ (lines.foldl (parseLine dockerPath p) s).stages, stage.2 ≠ [] := by
  induction lines generalizing s with
  | nil => exact h
  | cons line lines ih =>
    rw [List.foldl_cons]
    refine ih ?_
    cases line with
    | skip => exact h
    | stage name => exact ParseState.close_ne_nil h
    | instruction => exact h

/-- The commands of a Dockerfile build its images. -/
theorem parseDockerfile_commands {stages : List (String × List CommandSpec)}
    (hok : parseDockerfile dockerPath p = .ok stages) :
    stages.flatMap (·.2) = p.images.map (buildCommand dockerPath p) := by
  unfold parseDockerfile at hok
  split at hok
  · cases hok
  · rename_i dockerfile hdockerfile
    split at hok
    · cases hok
    · rename_i content hcontent
      obtain rfl := Except.ok.inj hok
      have himages : p.images = imagesOf content := by
        unfold DockerProject.images
        rw [hdockerfile, Option.bind_some, hcontent]
      rw [himages]
      unfold imagesOf
      set last := (dockerLines content).foldl (parseLine dockerPath p) ⟨[], "default", []⟩ with hlast
      have hcommands : last.close.flatMap (·.2) = (instructionStages "default" (dockerLines content)).map
          fun stage => buildCommand dockerPath p ("stage:" ++ stage) := by
        rw [ParseState.flatMap_close, hlast, commands_foldl_parseLine]
        rfl
      have hnonempty : ∀ stage ∈ last.close, stage.2 ≠ [] :=
        ParseState.close_ne_nil (foldl_parseLine_ne_nil _ fun _ hstage => absurd hstage List.not_mem_nil)
      cases hclose : last.close with
      | nil =>
        rw [hclose] at hcommands
        have hnone : instructionStages "default" (dockerLines content) = [] := List.map_eq_nil_iff.mp hcommands.symm
        rw [hnone]
        rfl
      | cons stage stages =>
        rw [hclose] at hcommands hnonempty
        have hsome : instructionStages "default" (dockerLines content) ≠ [] := by
          intro hnone
          rw [hnone, List.map_nil, List.flatMap_cons, List.append_eq_nil_iff] at hcommands
          exact hnonempty stage List.mem_cons_self hcommands.1
        have hempty : (instructionStages "default" (dockerLines content)).isEmpty = false := by
          simpa using hsome
        simp only [hempty, List.isEmpty_cons, Bool.false_eq_true, if_false, List.map_map]
        exact hcommands

/-- Tasks are added behind the others. -/
theorem addTasks_payloads (tasks : List Task) (graph : BuildGraph Task) :
    (addTasks tasks graph).nodes.map (·.payload) = graph.nodes.map (·.payload) ++ tasks := by
  induction tasks generalizing graph with
  | nil => exact (List.append_nil _).symm
  | cons task tasks ih =>
    rw [addTasks, ih]
    simp [addNode]

/-- What is hashed for a project. -/
def DockerProject.text (p : DockerProject) : Bytes :=
  dockerText p.config p.files.tree

/-- The tasks that a graph carries. -/
theorem carries_iff {g : BuildGraph Task} (hok : buildTaskGraph hash dockerPath p = .ok g) {entry : CacheEntry}
    {spec : CommandSpec} :
    Carries g entry spec ↔ (∃ dockerfile, p.config.dockerfilePath = some dockerfile ∧
      entry = ⟨"docker:" ++ pathString dockerfile, hash p.text⟩) ∧
        ∃ image ∈ p.images, spec = buildCommand dockerPath p image := by
  unfold buildTaskGraph at hok
  split at hok
  · cases hok
  · rename_i fingerprint hfingerprint
    have htext : fingerprint = hash p.text := by
      unfold hashReadable at hfingerprint
      exact (Option.some.inj (Option.ite_none_left_eq_some.mp hfingerprint).2).symm
    split at hok
    · cases hok
    · rename_i stages hstages
      obtain rfl := Except.ok.inj hok
      have hcommands := parseDockerfile_commands hstages
      unfold Carries
      rw [addTasks_payloads, htext]
      change (∃ task ∈ [] ++ _, _) ↔ _
      rw [List.nil_append]
      constructor
      · rintro ⟨task, htask, hentry, rfl⟩
        obtain ⟨⟨stage, commands⟩, hstage, htask⟩ := List.mem_flatMap.mp htask
        obtain ⟨spec, hspec, rfl⟩ := List.mem_map.mp htask
        have hmade : spec ∈ stages.flatMap (·.2) := List.mem_flatMap.mpr ⟨_, hstage, hspec⟩
        rw [hcommands] at hmade
        obtain ⟨image, himage, rfl⟩ := List.mem_map.mp hmade
        obtain ⟨dockerfile, hdockerfile, rfl⟩ := Option.map_eq_some_iff.mp hentry
        exact ⟨⟨dockerfile, hdockerfile, rfl⟩, image, himage, rfl⟩
      · rintro ⟨⟨dockerfile, hdockerfile, rfl⟩, image, himage, rfl⟩
        have hspec : buildCommand dockerPath p image ∈ stages.flatMap (·.2) := by
          rw [hcommands]
          exact List.mem_map.mpr ⟨image, himage, rfl⟩
        obtain ⟨⟨stage, commands⟩, hstage, hspec⟩ := List.mem_flatMap.mp hspec
        refine ⟨makeTask p (hash p.text) stages.length stage (buildCommand dockerPath p image),
          List.mem_flatMap.mpr ⟨_, hstage, List.mem_map.mpr ⟨_, hspec, rfl⟩⟩, ?_, rfl⟩
        change p.config.dockerfilePath.map _ = _
        rw [hdockerfile]
        rfl

/-- The words of a command. -/
theorem args_buildCommand (image : String) :
    (buildCommand dockerPath p image).args = ["build", "-t"] ++
      (splitWhitespace image.toList ++ splitWhitespace (pathString p.config.contextPath).toList).map String.ofList := by
  have hcommand : ("build -t " ++ image ++ " " ++ pathString p.config.contextPath).toList =
      "build".toList ++ ' ' :: ("-t".toList ++ ' ' :: (image.toList ++ ' ' :: (pathString p.config.contextPath).toList)) := by
    simp [String.toList_append]
  unfold buildCommand
  dsimp only
  rw [hcommand, splitWhitespace_append_cons _ _ (by decide), splitWhitespace_append_cons _ _ (by decide),
    splitWhitespace_append_cons _ _ (by decide)]
  have hbuild : splitWhitespace "build".toList = ["build".toList] := by decide
  have htag : splitWhitespace "-t".toList = ["-t".toList] := by decide
  rw [hbuild, htag]
  simp

end Images

/-! ## Identities -/

/-- The words that name an image and the context of a project. -/
def imageWords (p : DockerProject) (image : String) : List (List Char) :=
  splitWhitespace image.toList ++ splitWhitespace (pathString p.config.contextPath).toList

/-- Projects with the same Dockerfile for which the same is hashed build the same images in the same
context. -/
def Agree (p p' : DockerProject) : Prop :=
  p.config.dockerfilePath.map pathString = p'.config.dockerfilePath.map pathString → p.text = p'.text →
    ∀ image ∈ p.images, ∀ image' ∈ p'.images, imageWords p image = imageWords p' image'

section Identities

variable {hash : Bytes → String} {dockerPath : String} {p p' : DockerProject} {g g' : BuildGraph Task}

/-- Commands are the same when they build the same images in the same context. -/
theorem sameCommand_buildCommand_iff {image image' : String} :
    SameCommand (buildCommand dockerPath p image) (buildCommand dockerPath p' image') ↔
      imageWords p image = imageWords p' image' := by
  have hargs : (buildCommand dockerPath p image).args = (buildCommand dockerPath p' image').args ↔
      imageWords p image = imageWords p' image' := by
    rw [args_buildCommand, args_buildCommand, List.append_cancel_left_eq]
    exact (List.map_injective_iff.mpr fun _ _ => String.ofList_injective).eq_iff
  rw [← hargs]
  exact ⟨fun h => h.args, fun h => ⟨rfl, h, rfl, rfl⟩⟩

/-- Only a Dockerfile has images. -/
theorem exists_dockerfile {image : String} (himage : image ∈ p.images) :
    ∃ dockerfile, p.config.dockerfilePath = some dockerfile := by
  unfold DockerProject.images at himage
  cases hdockerfile : p.config.dockerfilePath with
  | none =>
    rw [hdockerfile] at himage
    exact absurd himage List.not_mem_nil
  | some dockerfile => exact ⟨dockerfile, rfl⟩

/-- The identities of tasks of two projects tell their commands exactly when projects with the same Dockerfile
for which the same is hashed build the same images. -/
theorem identifies_iff (hhash : HexHash hash) (hok : buildTaskGraph hash dockerPath p = .ok g)
    (hok' : buildTaskGraph hash dockerPath p' = .ok g') : Identifies g g' ↔ Agree p p' := by
  constructor
  · intro hidentifies hpaths htext image himage image' himage'
    obtain ⟨dockerfile, hdockerfile⟩ := exists_dockerfile himage
    obtain ⟨dockerfile', hdockerfile'⟩ := exists_dockerfile himage'
    rw [hdockerfile, hdockerfile'] at hpaths
    refine sameCommand_buildCommand_iff.mp (hidentifies _ _ _
      ((carries_iff hok).mpr ⟨⟨dockerfile, hdockerfile, rfl⟩, image, himage, rfl⟩)
      ((carries_iff hok').mpr ⟨⟨dockerfile', hdockerfile', ?_⟩, image', himage', rfl⟩))
    rw [htext, Option.some.inj hpaths]
  · intro hagree entry spec spec' hcarries hcarries'
    obtain ⟨⟨dockerfile, hdockerfile, rfl⟩, image, himage, rfl⟩ := (carries_iff hok).mp hcarries
    obtain ⟨⟨dockerfile', hdockerfile', hentry⟩, image', himage', rfl⟩ := (carries_iff hok').mp hcarries'
    obtain ⟨hkey, hfingerprint⟩ := CacheEntry.mk.inj hentry
    refine sameCommand_buildCommand_iff.mpr (hagree ?_ (hhash.injective hfingerprint) image himage image' himage')
    rw [hdockerfile, hdockerfile']
    exact congrArg some (String.append_right_inj _ |>.mp hkey)

/-- The identities of tasks tell their commands exactly when, in each project and between them, projects with
the same Dockerfile for which the same is hashed build the same images. -/
theorem identified_iff (hhash : HexHash hash) (hok : buildTaskGraph hash dockerPath p = .ok g)
    (hok' : buildTaskGraph hash dockerPath p' = .ok g') :
    Identified g g' ↔ Agree p p ∧ Agree p p' ∧ Agree p' p' := by
  rw [identified_iff_and, identifies_iff hhash hok hok, identifies_iff hhash hok hok', identifies_iff hhash hok' hok']

end Identities

end Forge.Backend.Docker
