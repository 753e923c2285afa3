import Forge.Backend.Docker
import Forge.Backend.Go
import Forge.Backend.TsIdentity
import Forge.Backend.Zig

/-!
# The identities of the tasks of all backends

What the cache identities of the tasks of the Go, Zig, TypeScript and Docker backends tell
about their commands, and projects for which they do not tell them.
-/

namespace Forge.Backend

open Forge.Common Forge.Graph Forge.Project Forge.Fingerprint Forge.Executor

/-- For each backend, the identities of the tasks of two projects tell their commands exactly when what the
commands are made of agrees as soon as what the identities are made of does. -/
theorem identified_iff_agree {hash : Bytes → String} (hhash : HexHash hash) :
    (∀ (b : Go.GoBackend) (p p' : Go.GoProject) (g g' : BuildGraph Task), b.createTasksFromConfig hash p = .ok g →
      b.createTasksFromConfig hash p' = .ok g' → (Identified g g' ↔ b.Agree p p')) ∧
    (∀ (b : Zig.ZigBackend) (p p' : Zig.ZigProject) (g g' : BuildGraph Task), b.createTasksFromConfig hash p = .ok g →
      b.createTasksFromConfig hash p' = .ok g' → (Identified g g' ↔ b.Agree p p')) ∧
    (∀ (dir : PathBuf) (p p' : Ts.TsProject) (g g' : BuildGraph Task), Ts.buildTaskGraph hash dir p = .ok g →
      Ts.buildTaskGraph hash dir p' = .ok g' →
        (Identified g g' ↔ Ts.Agree dir p p ∧ Ts.Agree dir p p' ∧ Ts.Agree dir p' p')) ∧
    (∀ (docker : String) (p p' : Docker.DockerProject) (g g' : BuildGraph Task),
      Docker.buildTaskGraph hash docker p = .ok g → Docker.buildTaskGraph hash docker p' = .ok g' →
        (Identified g g' ↔ Docker.Agree p p ∧ Docker.Agree p p' ∧ Docker.Agree p' p')) :=
  ⟨fun _ _ _ _ _ => Go.GoBackend.identified_iff hhash, fun _ _ _ _ _ => Zig.ZigBackend.identified_iff hhash,
    fun _ _ _ _ _ => Ts.identified_iff hhash, fun _ _ _ _ _ => Docker.identified_iff hhash⟩

/-! ## Samples -/

/-- The files of a project in `/ws`. -/
def filesIn (entries : List (String × Tree)) : ProjectFiles where
  tree := .dir (.cons (utf8Bytes "ws")
    (.dir (entries.foldr (fun entry below => .cons (utf8Bytes entry.1) entry.2 below) .nil)) .nil)
  unreadable := false

/-- A file with a text. -/
def textFile (name text : String) : String × Tree := (name, .file (utf8Bytes text))

/-- A toolchain for a project in `/ws`. -/
def sampleGo : Go.GoBackend := ⟨⟨"go", "go version go1.22.0 linux/amd64"⟩, ["ws"]⟩

/-- A Go project with flags for the linker and a source. -/
def goProject (ldflags : Option String) (source : String) : Go.GoProject where
  config := ⟨"app", "./...", [], ldflags, none, true, false, false, false, none, ⟨[], StringMap.sorted_nil⟩⟩
  outputDir := "/ws/build"
  files := filesIn [textFile "go.mod" "module app", textFile "main.go" source]

/-- A toolchain for a project in `/ws`. -/
def sampleZig : Zig.ZigBackend := ⟨⟨"zig", "0.13.0"⟩, ["ws"]⟩

/-- A Zig project that is built for release or not. -/
def zigProject (release : Bool) : Zig.ZigProject :=
  ⟨⟨"app", .native, release, true⟩, filesIn [textFile "build.zig" "b"]⟩

/-- A TypeScript project whose task runs a script. -/
def tsProject (script : String) : Ts.TsProject where
  config := ⟨"app", some .npm, [⟨"build", none, ["run", script], []⟩], ["src"]⟩
  files := filesIn [textFile "package.json" "\x7b\x7d",
    ("src", .dir (.cons (utf8Bytes "index.ts") (.file (utf8Bytes "x")) .nil))]

/-- A project with a Dockerfile. -/
def dockerProject (dockerfile : String) : Docker.DockerProject where
  config := ⟨some ["ws", "Dockerfile"], ["ws"], ⟨[], StringMap.sorted_nil⟩, none⟩
  files := filesIn [textFile "Dockerfile" dockerfile]

/-- A Dockerfile with one stage. -/
def oneStage : String := "FROM rust AS build\nRUN make\nRUN make test"

/-- A Dockerfile with two stages. -/
def twoStages : String := "FROM rust AS build\nRUN make\nFROM debian AS final\nCOPY app"

/-- The values of BLAKE3 that the identities use. -/
def identityValues : List (Bytes × String) :=
  [(utf8Bytes "/ws", "3da3aac414e1e666067db9238d67ee514abc1b10d25ef183e925691b993d355a"),
    (utf8Bytes "go version go1.22.0 linux/amd64\ntags:\nmodule appmain.go:v1",
      "da7fba670c9e95fdd11f40f0004e7a41d3386aa68a87f1107246e5902692a566"),
    (utf8Bytes "go version go1.22.0 linux/amd64\ntags:\nmodule appmain.go:v2",
      "6998a40ec64093057bae01e4951a3110809e5ab2b57c417f293c79abfd73134d"),
    (utf8Bytes "0.13.0nativebuild.zig:bb", "d1d7849a60c63d8c09ed3118e0820b8aefce9a4a60976df9ef557b0ae4621d02"),
    (utf8Bytes "package.json\x7b\x7dindex.ts:x", "d8591729c8269b12def08237c21043d95718c26cc40c671c45a24f4cac7fc683"),
    (utf8Bytes "prefix[73]:ts:d8591729c8269b12def08237c21043d95718c26cc40c671c45a24f4cac7fc683:build",
      "259999d1c3fa77e60189e57ec25b791663892b75cc54f557422c24e46e44a121"),
    (utf8Bytes (oneStage ++ "Dockerfile:" ++ oneStage),
      "8f26c6a3d4e3a5400afe3d3a04066997e71a723349b10d533d3b6ab47c4a9a6a"),
    (utf8Bytes (twoStages ++ "Dockerfile:" ++ twoStages),
      "d2127380e1b77cd99f3c8f93cadd8a4d03e2dde7f4db6fe058cbc9e168dd15aa")]

/-- These values are hexadecimal. -/
theorem identityValues_hex : ∀ entry ∈ identityValues, entry.2.toList.all isHexDigit = true := by
  decide +kernel

/-- A hash with these values. -/
def identityHashes : JsonCodec.Table Bytes where
  known := identityValues
  texts_nodup := by decide +kernel
  nonzero := fun entry hentry hhead =>
    notMem_of_all_isHexDigit (by decide) (identityValues_hex entry hentry) (List.mem_of_mem_head? hhead)

/-- The hash has no collisions, and its values have neither colons nor underscores. -/
theorem identityHashes_hex : HexHash (hashOf identityHashes) :=
  hexHash_hashOf identityValues_hex

/-- The Dockerfile of a project is read. -/
theorem read_dockerProject (dockerfile : String) :
    (isFile (dockerProject dockerfile).files.tree (osPath ["ws", "Dockerfile"])).bind fromUtf8 = some dockerfile := by
  have hfile : isFile (dockerProject dockerfile).files.tree (osPath ["ws", "Dockerfile"]) = some (utf8Bytes dockerfile) :=
    rfl
  rw [hfile, Option.bind_some, fromUtf8_utf8Bytes]

/-- The images of a project with a Dockerfile. -/
theorem images_dockerProject (dockerfile : String) :
    (dockerProject dockerfile).images = Docker.imagesOf dockerfile := by
  have hread : ((dockerProject dockerfile).config.dockerfilePath.bind fun path =>
      isFile (dockerProject dockerfile).files.tree (osPath path)).bind fromUtf8 = some dockerfile :=
    read_dockerProject dockerfile
  rw [Docker.DockerProject.images, hread]

/-- A project with a Dockerfile has tasks. -/
theorem exists_buildTaskGraph_docker (hash : Bytes → String) (dockerfile : String) :
    ∃ g, Docker.buildTaskGraph hash "docker" (dockerProject dockerfile) = .ok g := by
  obtain ⟨stages, hstages⟩ : ∃ stages, Docker.parseDockerfile "docker" (dockerProject dockerfile) = .ok stages := by
    have hread := read_dockerProject dockerfile
    have hpath : (dockerProject dockerfile).config.dockerfilePath = some ["ws", "Dockerfile"] := rfl
    unfold Docker.parseDockerfile
    rw [hpath]
    dsimp only
    rw [hread]
    exact ⟨_, rfl⟩
  unfold Docker.buildTaskGraph
  rw [hstages]
  exact ⟨_, rfl⟩

/-- A project with one task has a graph. -/
theorem exists_buildTaskGraph_ts (hash : Bytes → String) (script : String) :
    ∃ g, Ts.buildTaskGraph hash ["ws"] (tsProject script) = .ok g := by
  have horder : TaskDag.resolveDagOrder (·.name) (·.dependsOn) (tsProject script).config.tasks = .ok [0] := rfl
  unfold Ts.buildTaskGraph
  rw [horder]
  exact ⟨_, rfl⟩

/-- The only task of the project. -/
theorem processed_tsProject (script : String) : (tsProject script).processed = [⟨"build", none, ["run", script], []⟩] :=
  rfl

/-- The samples do not differ in what is not hashed, so that their identities tell their commands. -/
theorem identified_samples :
    (∃ g g', sampleGo.createTasksFromConfig (hashOf identityHashes) (goProject none "v1") = .ok g ∧
      sampleGo.createTasksFromConfig (hashOf identityHashes) (goProject none "v2") = .ok g' ∧ Identified g g') ∧
    (∃ g, sampleZig.createTasksFromConfig (hashOf identityHashes) (zigProject true) = .ok g ∧ Identified g g) ∧
    (∃ g, Ts.buildTaskGraph (hashOf identityHashes) ["ws"] (tsProject "build") = .ok g ∧ Identified g g) ∧
    ∃ g, Docker.buildTaskGraph (hashOf identityHashes) "docker" (dockerProject oneStage) = .ok g ∧ Identified g g := by
  obtain ⟨hgo, hzig, hts, hdocker⟩ := identified_iff_agree identityHashes_hex
  refine ⟨?_, ?_, ?_, ?_⟩
  · obtain ⟨g, hok⟩ : ∃ g, sampleGo.createTasksFromConfig (hashOf identityHashes) (goProject none "v1") = .ok g :=
      Go.GoBackend.exists_createTasksFromConfig
    obtain ⟨g', hok'⟩ : ∃ g, sampleGo.createTasksFromConfig (hashOf identityHashes) (goProject none "v2") = .ok g :=
      Go.GoBackend.exists_createTasksFromConfig
    exact ⟨g, g', hok, hok', (hgo _ _ _ _ _ hok hok').mpr fun _ _ => ⟨rfl, rfl, rfl, rfl, rfl, rfl, fun _ _ => ⟨rfl, rfl⟩⟩⟩
  · obtain ⟨g, hok⟩ : ∃ g, sampleZig.createTasksFromConfig (hashOf identityHashes) (zigProject true) = .ok g :=
      Zig.ZigBackend.exists_createTasksFromConfig
    exact ⟨g, hok, (hzig _ _ _ _ _ hok hok).mpr fun _ _ => ⟨rfl, Iff.rfl, rfl⟩⟩
  · obtain ⟨g, hok⟩ := exists_buildTaskGraph_ts (hashOf identityHashes) "build"
    have hagree : Ts.Agree ["ws"] (tsProject "build") (tsProject "build") := by
      intro task rest task' rest' hsuffix hsuffix' _ _
      rw [processed_tsProject] at hsuffix hsuffix'
      have hmem := hsuffix.subset List.mem_cons_self
      have hmem' := hsuffix'.subset List.mem_cons_self
      rw [List.mem_singleton.mp hmem, List.mem_singleton.mp hmem']
      exact ⟨rfl, rfl⟩
    exact ⟨g, hok, (hts _ _ _ _ _ hok hok).mpr ⟨hagree, hagree, hagree⟩⟩
  · obtain ⟨g, hok⟩ := exists_buildTaskGraph_docker (hashOf identityHashes) oneStage
    have hagree : Docker.Agree (dockerProject oneStage) (dockerProject oneStage) := by
      intro _ _ image himage image' himage'
      rw [images_dockerProject] at himage himage'
      have himages : Docker.imagesOf oneStage = ["stage:build", "stage:build"] := by decide
      rw [himages] at himage himage'
      simp only [List.mem_cons, List.not_mem_nil, or_false, or_self] at himage himage'
      rw [himage, himage']
    exact ⟨g, hok, (hdocker _ _ _ _ _ hok hok).mpr ⟨hagree, hagree, hagree⟩⟩

/-- Flags for the linker, a release build, another script and another stage are not in the identities. -/
theorem not_identified_samples :
    (∃ g g', sampleGo.createTasksFromConfig (hashOf identityHashes) (goProject none "v1") = .ok g ∧
      sampleGo.createTasksFromConfig (hashOf identityHashes) (goProject (some "-s -w") "v1") = .ok g' ∧
        ¬ Identified g g') ∧
    (∃ g g', sampleZig.createTasksFromConfig (hashOf identityHashes) (zigProject false) = .ok g ∧
      sampleZig.createTasksFromConfig (hashOf identityHashes) (zigProject true) = .ok g' ∧ ¬ Identified g g') ∧
    (∃ g g', Ts.buildTaskGraph (hashOf identityHashes) ["ws"] (tsProject "build") = .ok g ∧
      Ts.buildTaskGraph (hashOf identityHashes) ["ws"] (tsProject "bundle") = .ok g' ∧ ¬ Identified g g') ∧
    ∃ g, Docker.buildTaskGraph (hashOf identityHashes) "docker" (dockerProject twoStages) = .ok g ∧ ¬ Identified g g := by
  refine ⟨?_, ?_, ?_, ?_⟩
  · obtain ⟨g, hok⟩ := @Go.GoBackend.exists_createTasksFromConfig (hashOf identityHashes) sampleGo (goProject none "v1")
    obtain ⟨g', hok'⟩ :=
      @Go.GoBackend.exists_createTasksFromConfig (hashOf identityHashes) sampleGo (goProject (some "-s -w") "v1")
    refine ⟨g, g', hok, hok', fun hidentified => ?_⟩
    have hagree := (Go.GoBackend.identified_iff identityHashes_hex hok hok').mp hidentified
    exact absurd (hagree rfl ⟨rfl, fun _ => rfl⟩).ldflags nofun
  · obtain ⟨g, hok⟩ := @Zig.ZigBackend.exists_createTasksFromConfig (hashOf identityHashes) sampleZig (zigProject false)
    obtain ⟨g', hok'⟩ := @Zig.ZigBackend.exists_createTasksFromConfig (hashOf identityHashes) sampleZig (zigProject true)
    refine ⟨g, g', hok, hok', fun hidentified => ?_⟩
    have hagree := (Zig.ZigBackend.identified_iff identityHashes_hex hok hok').mp hidentified
    exact absurd (hagree rfl ⟨rfl, fun _ => rfl⟩).release nofun
  · obtain ⟨g, hok⟩ := exists_buildTaskGraph_ts (hashOf identityHashes) "build"
    obtain ⟨g', hok'⟩ := exists_buildTaskGraph_ts (hashOf identityHashes) "bundle"
    refine ⟨g, g', hok, hok', fun hidentified => ?_⟩
    have hagree := ((Ts.identified_iff identityHashes_hex hok hok').mp hidentified).2.1
    have halike : Ts.HistoriesAlike ["ws"] (tsProject "build") (tsProject "bundle")
        [⟨"build", none, ["run", "build"], []⟩] [⟨"build", none, ["run", "bundle"], []⟩] :=
      .intro rfl [] .nil .nil
    have hbuild : [⟨"build", none, ["run", "build"], []⟩] <:+ (tsProject "build").processed := by
      rw [processed_tsProject]
    have hbundle : [⟨"build", none, ["run", "bundle"], []⟩] <:+ (tsProject "bundle").processed := by
      rw [processed_tsProject]
    have hsame := hagree _ [] _ [] hbuild hbundle rfl halike
    exact absurd hsame.2 (by decide)
  · obtain ⟨g, hok⟩ := exists_buildTaskGraph_docker (hashOf identityHashes) twoStages
    refine ⟨g, hok, fun hidentified => ?_⟩
    have hagree := ((Docker.identified_iff identityHashes_hex hok hok).mp hidentified).1
    have himages : (dockerProject twoStages).images = ["stage:build", "stage:final"] := by
      rw [images_dockerProject]
      decide
    have hwords := hagree rfl rfl "stage:build" (by rw [himages]; decide) "stage:final" (by rw [himages]; decide)
    exact absurd hwords (by decide)

end Forge.Backend
