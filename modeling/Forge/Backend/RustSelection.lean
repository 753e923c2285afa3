import Forge.Backend.RustTasks
import Forge.Graph.Subgraph
import Forge.Project.BuildOrder

/-!
# The packages that changed files select

Changed files select the members that own them and whatever depends on these, or the whole
workspace when a file has no owner. What is hashed for a package does not follow the
owners: it is every file below the directory of the package, and the lock file. So every
package whose fingerprint changed is selected exactly when every package whose hashed files
changed needs an owner of a changed file, or when a changed file has no owner.
-/

namespace Forge.Backend.Rust

open Relation Forge.Common Forge.Graph Forge.Graph.BuildGraph Forge.Project Forge.Fingerprint Forge.Executor

/-! ## What is hashed -/

/-- What is hashed for the inputs of the package of a node, nothing without its directory. -/
def Build.inputText (b : Build) (fs : Tree) (id : NodeId) : Bytes :=
  match b.packageGraph.node id with
  | none => []
  | some node =>
    match b.packageDir node.payload with
    | .error _ => []
    | .ok dir => packageInputText fs (osPath dir) (b.lockFile fs) b.backend.toolchain b.mode

/-- The same inputs have the same fingerprint. -/
theorem Build.ownOf_congr {hash : Bytes → String} {b : Build} {fs fs' : Tree} {id : NodeId}
    (hsame : b.inputText fs id = b.inputText fs' id) : b.ownOf hash fs id = b.ownOf hash fs' id := by
  unfold Build.ownOf Build.own
  unfold Build.inputText at hsame
  cases hnode : b.packageGraph.node id with
  | none => rfl
  | some node =>
    cases hdir : b.packageDir node.payload with
    | error e => simp only [hdir]
    | ok dir =>
      simp only [hnode, hdir] at hsame ⊢
      exact congrArg hash hsame

/-- With a hash without collisions different inputs have different fingerprints. -/
theorem Build.inputText_congr {hash : Bytes → String} (hhash : Function.Injective hash) {b : Build} {fs fs' : Tree}
    {id : NodeId} (hsame : b.ownOf hash fs id = b.ownOf hash fs' id) : b.inputText fs id = b.inputText fs' id := by
  unfold Build.inputText
  unfold Build.ownOf Build.own at hsame
  cases hnode : b.packageGraph.node id with
  | none => rfl
  | some node =>
    cases hdir : b.packageDir node.payload with
    | error e => simp only [hdir]
    | ok dir =>
      simp only [hnode, hdir] at hsame ⊢
      exact hhash hsame

/-! ## Changes -/

/-- Two states of the files of a workspace, the paths of the files in which they differ, and the
fingerprints that are made for the whole package graph in both states. -/
structure Change (hash : Bytes → String) (m : Metadata) (includeDev : Bool) where
  build : Build
  before : Tree
  after : Tree
  paths : List Path
  fingerprints : Build.Fingerprints
  fingerprints' : Build.Fingerprints
  project : build.project = m
  whole : build.packageGraph = (m.buildGraphWith includeDev).2
  distinct : before.Distinct
  distinct' : after.Distinct
  exactly : ∀ path, path ∈ paths ↔ isFile before path ≠ isFile after path
  made : build.fingerprints hash before = .ok fingerprints
  made' : build.fingerprints hash after = .ok fingerprints'

/-- The nodes of packages. -/
def ownerNodes (graph : BuildGraph PackageId) (owners : List PackageId) : List NodeId :=
  (graph.nodes.filter fun node => owners.any fun owner => node.payload == owner).map (·.id)

/-- Changed files select a node: they concern the whole workspace, or affect it through their owners. -/
def Selected (m : Metadata) (graph : BuildGraph PackageId) (paths : List Path) (id : NodeId) : Prop :=
  match m.packagesForPaths paths with
  | none => True
  | some owners => id ∈ graph.affectedNodes (ownerNodes graph owners)

/-- The nodes of packages are those that carry them. -/
theorem mem_ownerNodes_iff {graph : BuildGraph PackageId} (hwf : graph.WellFormed) {owners : List PackageId}
    {id : NodeId} : id ∈ ownerNodes graph owners ↔ ∃ owner ∈ owners, (graph.node id).map (·.payload) = some owner := by
  unfold ownerNodes
  rw [List.mem_map]
  constructor
  · rintro ⟨node, hnode, rfl⟩
    obtain ⟨hmem, howner⟩ := List.mem_filter.mp hnode
    obtain ⟨owner, howner, hsame⟩ := List.any_eq_true.mp howner
    obtain ⟨i, hi⟩ := List.mem_iff_getElem?.mp hmem
    refine ⟨owner, howner, ?_⟩
    rw [hwf.ids i node hi, BuildGraph.node, hi]
    exact congrArg some (eq_of_beq hsame)
  · rintro ⟨owner, howner, hpayload⟩
    obtain ⟨node, hnode, rfl⟩ := Option.map_eq_some_iff.mp hpayload
    refine ⟨node, List.mem_filter.mpr ⟨List.mem_of_getElem? hnode, ?_⟩, hwf.ids id node hnode⟩
    exact List.any_eq_true.mpr ⟨node.payload, howner, beq_self_eq_true _⟩

/-- A file belongs to no member. -/
def Foreign (m : Metadata) (path : Path) : Prop :=
  ∀ package ∈ m.memberPackages, package.owned path = false

/-- A node needs the owner of a file, or carries it. -/
def NeedsOwner (m : Metadata) (graph : BuildGraph PackageId) (path : Path) (id : NodeId) : Prop :=
  ∃ package, MostSpecific m.memberPackages path package ∧
    ∃ owner : ℕ, (graph.node owner).map (·.payload) = some package.id ∧ ReflTransGen graph.Edge owner id

/-- What changed files select. -/
theorem selected_iff {m : Metadata} {graph : BuildGraph PackageId} (hwf : graph.WellFormed) {paths : List Path}
    {id : NodeId} :
    Selected m graph paths id ↔ (∃ path ∈ paths, Foreign m path) ∨ ∃ path ∈ paths, NeedsOwner m graph path id := by
  unfold Selected
  cases hpackages : m.packagesForPaths paths with
  | none =>
    have hforeign := Metadata.packagesForPaths_eq_none_iff.mp hpackages
    exact iff_of_true trivial (.inl hforeign)
  | some owners =>
    have hforeign : ¬ ∃ path ∈ paths, Foreign m path := by
      intro hforeign
      rw [Metadata.packagesForPaths_eq_none_iff.mpr hforeign] at hpackages
      exact absurd hpackages nofun
    rw [or_iff_right hforeign]
    change id ∈ graph.affectedNodes (ownerNodes graph owners) ↔ _
    rw [hwf.mem_affectedNodes_iff]
    constructor
    · rintro ⟨owner, howner, -, hpath⟩
      obtain ⟨packageId, hpackageId, hpayload⟩ := (mem_ownerNodes_iff hwf).mp howner
      obtain ⟨path, hmem, package, hspecific, rfl⟩ := (Metadata.mem_packagesForPaths_iff hpackages).mp hpackageId
      exact ⟨path, hmem, package, hspecific, owner, hpayload, hpath⟩
    · rintro ⟨path, hmem, package, hspecific, owner, hpayload, hpath⟩
      have hlisted := (Metadata.mem_packagesForPaths_iff hpackages).mpr ⟨path, hmem, package, hspecific, rfl⟩
      have hlt : owner < graph.len := by
        obtain ⟨node, hnode, -⟩ := Option.map_eq_some_iff.mp hpayload
        exact (List.getElem?_eq_some_iff.mp hnode).1
      exact ⟨owner, (mem_ownerNodes_iff hwf).mpr ⟨_, hlisted, hpayload⟩, hlt, hpath⟩

/-- What is selected selects what depends on it. -/
theorem Selected.mono {m : Metadata} {graph : BuildGraph PackageId} (hwf : graph.WellFormed) {paths : List Path}
    {a b : ℕ} (h : Selected m graph paths a) (hpath : ReflTransGen graph.Edge a b) : Selected m graph paths b := by
  rw [selected_iff hwf] at h ⊢
  refine h.imp_right ?_
  rintro ⟨path, hmem, package, hspecific, owner, hpayload, howner⟩
  exact ⟨path, hmem, package, hspecific, owner, hpayload, howner.trans hpath⟩

namespace Change

variable {hash : Bytes → String} {m : Metadata} {includeDev : Bool}

/-- Every package whose fingerprint changed is selected. -/
def Covered (c : Change hash m includeDev) : Prop :=
  ∀ id, c.fingerprints.lookup id ≠ c.fingerprints'.lookup id → Selected m c.build.packageGraph c.paths id

/-- Some changed file belongs to no member, or every package whose hashed inputs changed needs the owner
of a changed file. -/
def OwnersNeeded (c : Change hash m includeDev) : Prop :=
  (∃ path ∈ c.paths, Foreign m path) ∨
    ∀ id, c.build.inputText c.before id ≠ c.build.inputText c.after id →
      ∃ path ∈ c.paths, NeedsOwner m c.build.packageGraph path id

/-- The package graph satisfies the invariant of the graph. -/
theorem wellFormed (c : Change hash m includeDev) : c.build.packageGraph.WellFormed := by
  rw [c.whole]
  exact insertAll_wellFormed _ m.numbered.wellFormed

/-- The fingerprints before the change. -/
theorem fingerprinted (c : Change hash m includeDev) :
    Build.Fingerprinted hash c.before c.build c.build.packageGraph.levels.flatten c.fingerprints :=
  Build.fingerprints_made c.wellFormed c.made

/-- The fingerprints after the change. -/
theorem fingerprinted' (c : Change hash m includeDev) :
    Build.Fingerprinted hash c.after c.build c.build.packageGraph.levels.flatten c.fingerprints' :=
  Build.fingerprints_made c.wellFormed c.made'

/-- A node has the same fingerprint before and after the change, or none, when nothing that it needs has
other inputs. -/
theorem lookup_congr (c : Change hash m includeDev) {id : ℕ}
    (hsame : ∀ needed : ℕ, ReflTransGen c.build.packageGraph.Edge needed id →
      c.build.inputText c.before needed = c.build.inputText c.after needed) :
    c.fingerprints.lookup id = c.fingerprints'.lookup id := by
  have h := c.fingerprinted
  have h' := c.fingerprinted'
  induction id using c.wellFormed.edge_wf.induction with
  | _ id ih =>
    by_cases hid : id ∈ c.build.packageGraph.levels.flatten
    · have hdeps : ((c.build.packageGraph.depList id).filterMap fun dep => c.fingerprints.lookup dep) =
          (c.build.packageGraph.depList id).filterMap fun dep => c.fingerprints'.lookup dep := by
        refine List.filterMap_congr fun dep hdep => ?_
        have hedge := c.wellFormed.mem_depList_iff.mp hdep
        exact ih dep hedge fun needed hneeded => hsame needed (hneeded.tail hedge)
      rw [h.made id hid, h'.made id hid, hdeps, Build.ownOf_congr (hsame id .refl)]
    · have hnone : c.fingerprints.lookup id = none :=
        Option.not_isSome_iff_eq_none.mp fun hsome => hid ((h.found id).mp hsome)
      have hnone' : c.fingerprints'.lookup id = none :=
        Option.not_isSome_iff_eq_none.mp fun hsome => hid ((h'.found id).mp hsome)
      rw [hnone, hnone']

/-- With a hash without collisions a node whose inputs changed has another fingerprint. -/
theorem lookup_ne (hhash : Function.Injective hash) (c : Change hash m includeDev) {id : NodeId}
    (hother : c.build.inputText c.before id ≠ c.build.inputText c.after id) :
    c.fingerprints.lookup id ≠ c.fingerprints'.lookup id := by
  have hid : id ∈ c.build.packageGraph.levels.flatten := by
    rw [c.wellFormed.mem_levels_iff]
    by_contra hge
    have hnode : c.build.packageGraph.node id = none := List.getElem?_eq_none (Nat.le_of_not_lt hge)
    exact hother (by simp only [Build.inputText, hnode])
  intro hsame
  rw [c.fingerprinted.made id hid, c.fingerprinted'.made id hid] at hsame
  obtain ⟨hown, -⟩ := (combineFingerprints_eq_iff hhash).mp (Option.some.inj hsame)
  exact hother (Build.inputText_congr hhash hown)

/-- Every package whose fingerprint changed is selected as soon as every package whose hashed inputs changed
needs the owner of a changed file. -/
theorem covered_of_ownersNeeded {c : Change hash m includeDev} (h : c.OwnersNeeded) : c.Covered := by
  intro id hother
  -- Some package that this one needs, or this one itself, has other inputs.
  obtain ⟨needed, hpath, hinputs⟩ : ∃ needed : ℕ, ReflTransGen c.build.packageGraph.Edge needed id ∧
      c.build.inputText c.before needed ≠ c.build.inputText c.after needed := by
    by_contra hnone
    push Not at hnone
    exact hother (c.lookup_congr hnone)
  have hselected : Selected m c.build.packageGraph c.paths needed :=
    (selected_iff c.wellFormed).mpr (h.imp_right fun howners => howners needed hinputs)
  exact hselected.mono c.wellFormed hpath

/-- With a hash without collisions every package whose fingerprint changed is selected exactly when some
changed file belongs to no member, or every package whose hashed inputs changed needs the owner of a
changed file. -/
theorem covered_iff (hhash : Function.Injective hash) (c : Change hash m includeDev) :
    c.Covered ↔ c.OwnersNeeded := by
  refine ⟨fun hcovered => ?_, covered_of_ownersNeeded⟩
  by_cases hforeign : ∃ path ∈ c.paths, Foreign m path
  · exact .inl hforeign
  · refine .inr fun id hinputs => ?_
    exact ((selected_iff c.wellFormed).mp (hcovered id (c.lookup_ne hhash hinputs))).resolve_left hforeign

end Change

/-! ## A sample -/

/-- A workspace with a package at its root that uses another member. -/
def rootAndUtil : Metadata where
  packages :=
    [⟨"path+file:///ws#root@0.1.0", "root", ["ws", "Cargo.toml"], []⟩,
      ⟨"path+file:///ws/util#0.1.0", "util", ["ws", "util", "Cargo.toml"], []⟩]
  workspaceMembers := ["path+file:///ws#root@0.1.0", "path+file:///ws/util#0.1.0"]
  resolve := some ⟨[⟨"path+file:///ws#root@0.1.0", [⟨"path+file:///ws/util#0.1.0", [.normal]⟩]⟩,
    ⟨"path+file:///ws/util#0.1.0", []⟩]⟩
  workspaceRoot := ["ws"]

/-- The files of the workspace with a lock file and a source of the root package. -/
def rootAndUtilFiles (lock main : String) : Tree :=
  .dir (.cons (utf8Bytes "ws")
    (.dir (.cons (utf8Bytes "Cargo.lock") (.file (utf8Bytes lock))
      (.cons (utf8Bytes "Cargo.toml") (.file (utf8Bytes "name = \"root\""))
        (.cons (utf8Bytes "main.rs") (.file (utf8Bytes main))
          (.cons (utf8Bytes "util")
            (.dir (.cons (utf8Bytes "Cargo.toml") (.file (utf8Bytes "name = \"util\"")) .nil)) .nil)))))
    .nil)

/-- No directory of the workspace lists a name twice. -/
theorem rootAndUtilFiles_distinct (lock main : String) : (rootAndUtilFiles lock main).Distinct :=
  ⟨List.nodup_singleton _, ⟨by simp only [Entries.names]; decide, trivial, trivial, trivial,
    ⟨List.nodup_singleton _, trivial, trivial⟩, trivial⟩, trivial⟩

/-- The lock file of the workspace. -/
def lockPath : Path := [utf8Bytes "ws", utf8Bytes "Cargo.lock"]

/-- The source of the root package. -/
def mainPath : Path := [utf8Bytes "ws", utf8Bytes "main.rs"]

/-- Only the lock file and the source of the root package vary. -/
theorem isFile_rootAndUtilFiles (lock main : String) (path : Path) :
    isFile (rootAndUtilFiles lock main) path =
      if path = lockPath then some (utf8Bytes lock)
      else if path = mainPath then some (utf8Bytes main)
      else isFile (rootAndUtilFiles "" "") path := by
  have hlock : utf8Bytes "Cargo.lock" ≠ utf8Bytes "main.rs" := by decide
  have htoml : utf8Bytes "Cargo.toml" ≠ utf8Bytes "main.rs" := by decide
  unfold rootAndUtilFiles lockPath mainPath
  match path with
  | [] => simp
  | [ws] => simp only [isFile_dir_cons]; split <;> simp
  | [ws, name] => simp; grind
  | ws :: name :: file :: more => simp

/-- A build of the whole workspace. -/
def rootAndUtilBuild : Build :=
  ⟨⟨"rustc 1.90.0", "cargo"⟩, rootAndUtil, rootAndUtil.buildGraph, .build, true⟩

/-- The fingerprints of the two packages. -/
def rootAndUtilFingerprints (hash : Bytes → String) (fs : Tree) : Build.Fingerprints :=
  let util := combineFingerprints hash (rootAndUtilBuild.own hash fs "path+file:///ws/util#0.1.0") []
  [(0, combineFingerprints hash (rootAndUtilBuild.own hash fs "path+file:///ws#root@0.1.0") [util]), (1, util)]

/-- The lock file changes. -/
def lockChange (hash : Bytes → String) : Change hash rootAndUtil false where
  build := rootAndUtilBuild
  before := rootAndUtilFiles "v1" "a"
  after := rootAndUtilFiles "v2" "a"
  paths := [lockPath]
  fingerprints := rootAndUtilFingerprints hash (rootAndUtilFiles "v1" "a")
  fingerprints' := rootAndUtilFingerprints hash (rootAndUtilFiles "v2" "a")
  project := rfl
  whole := rfl
  distinct := rootAndUtilFiles_distinct "v1" "a"
  distinct' := rootAndUtilFiles_distinct "v2" "a"
  exactly := by
    intro path
    have hother : utf8Bytes "v1" ≠ utf8Bytes "v2" := by decide
    rw [List.mem_singleton, isFile_rootAndUtilFiles "v1", isFile_rootAndUtilFiles "v2"]
    by_cases hpath : path = lockPath
    · simp [hpath, hother]
    · simp [hpath]
  made := rfl
  made' := rfl

/-- The source of the root package changes. -/
def mainChange (hash : Bytes → String) : Change hash rootAndUtil false where
  build := rootAndUtilBuild
  before := rootAndUtilFiles "v1" "a"
  after := rootAndUtilFiles "v1" "b"
  paths := [mainPath]
  fingerprints := rootAndUtilFingerprints hash (rootAndUtilFiles "v1" "a")
  fingerprints' := rootAndUtilFingerprints hash (rootAndUtilFiles "v1" "b")
  project := rfl
  whole := rfl
  distinct := rootAndUtilFiles_distinct "v1" "a"
  distinct' := rootAndUtilFiles_distinct "v1" "b"
  exactly := by
    intro path
    have hother : utf8Bytes "a" ≠ utf8Bytes "b" := by decide
    rw [List.mem_singleton, isFile_rootAndUtilFiles "v1" "a", isFile_rootAndUtilFiles "v1" "b"]
    by_cases hpath : path = mainPath
    · have hne : mainPath ≠ lockPath := by decide
      simp [hpath, hother, hne]
    · simp [hpath]
  made := rfl
  made' := rfl

/-- What is hashed for the root package. -/
def rootText (lock main : String) : String :=
  "Cargo.lock:" ++ lock ++ "Cargo.toml:name = \"root\"main.rs:" ++ main ++
    "util/Cargo.toml:name = \"util\"lock:" ++ lock ++ "profile=debug;toolchain=rustc 1.90.0;mode=build"

/-- What is hashed for the other member. -/
def utilText (lock : String) : String :=
  "Cargo.toml:name = \"util\"lock:" ++ lock ++ "profile=debug;toolchain=rustc 1.90.0;mode=build"

/-- The values of BLAKE3 that the fingerprints use. -/
def rootAndUtilHashes : JsonCodec.Table Bytes where
  known :=
    [(utf8Bytes (utilText "v1"), "69bef189f697644585af1cb0f2e255fdb0e6ac2e5fc16093ee29abe3245faf77"),
      (utf8Bytes (utilText "v2"), "d80f8b866194b7b9bd32a41f0f2a2f0a0c95e4ab3cb22256f5d773631660a5e0"),
      (utf8Bytes (rootText "v1" "a"), "95986b79621d7555c98c5d28a449b3a562864d56ac6f684c650e6ff6ac6ff273"),
      (utf8Bytes (rootText "v2" "a"), "94bc3caa1fa0cc3626e9903642dd0578373dc06096e5645b6a6cca36d17c39fd"),
      (utf8Bytes (rootText "v1" "b"), "f0d23e80ecd53e4dd377ce0a25837a1883822c1059c8e23a6e48d8ec5c475338"),
      (combineText "69bef189f697644585af1cb0f2e255fdb0e6ac2e5fc16093ee29abe3245faf77" [],
        "130858dc94ffa0b4f3fb3eddf593d111a819d65ba1c1bcaf7fe61672bd6cff4f"),
      (combineText "d80f8b866194b7b9bd32a41f0f2a2f0a0c95e4ab3cb22256f5d773631660a5e0" [],
        "9c06c85893e19854d7637aea637b8940f3c0a5ed83f8fd40ce09ab785af94977"),
      (combineText "95986b79621d7555c98c5d28a449b3a562864d56ac6f684c650e6ff6ac6ff273"
        ["130858dc94ffa0b4f3fb3eddf593d111a819d65ba1c1bcaf7fe61672bd6cff4f"],
        "9288976f47a822d573d3f07d3a3132e97d0088f92544f5323c028922e275a69f"),
      (combineText "94bc3caa1fa0cc3626e9903642dd0578373dc06096e5645b6a6cca36d17c39fd"
        ["9c06c85893e19854d7637aea637b8940f3c0a5ed83f8fd40ce09ab785af94977"],
        "a506a75a7e45d1832057da6909e3acaf708ba112e29b9685b96015ed20d5d9e4"),
      (combineText "f0d23e80ecd53e4dd377ce0a25837a1883822c1059c8e23a6e48d8ec5c475338"
        ["130858dc94ffa0b4f3fb3eddf593d111a819d65ba1c1bcaf7fe61672bd6cff4f"],
        "a240103464bee6dd90d948c13fd4edf037a4ea565723a0c3ece67fb91ce6d2ae")]
  texts_nodup := by decide +kernel
  nonzero := by decide +kernel

/-- A change of a source of the root package selects it, and nothing else changes. -/
theorem covered_mainChange : (mainChange (hashOf rootAndUtilHashes)).Covered := by
  refine (Change.covered_iff (hashOf_injective _) _).mpr (.inr fun id hinputs => ?_)
  have howner : bestOwner mainPath rootAndUtil.memberPackages none =
      some (⟨"path+file:///ws#root@0.1.0", "root", ["ws", "Cargo.toml"], []⟩, 2) := by decide
  refine ⟨mainPath, List.mem_singleton_self _, _, (bestOwner_eq_some_iff.mp howner).2, 0, by decide, ?_⟩
  match id with
  | 0 => exact .refl
  | 1 => exact absurd rfl hinputs
  | id + 2 => exact absurd rfl hinputs

/-- A change of the lock file selects the package at the root only, and the other member has another
fingerprint. -/
theorem not_covered_lockChange :
    packageFilter.reads [] lockPath = true ∧ rootAndUtil.packagesForPaths [lockPath] = some ["path+file:///ws#root@0.1.0"] ∧
      rootAndUtil.buildGraph.affectedNodes [0] = [0] ∧ ¬ (lockChange (hashOf rootAndUtilHashes)).Covered := by
  have hpackages : rootAndUtil.packagesForPaths [lockPath] = some ["path+file:///ws#root@0.1.0"] := by decide
  have haffected : rootAndUtil.buildGraph.affectedNodes [0] = [0] := by decide
  refine ⟨by decide, hpackages, haffected, fun hcovered => ?_⟩
  have hinputs : rootAndUtilBuild.inputText (rootAndUtilFiles "v1" "a") 1 ≠
      rootAndUtilBuild.inputText (rootAndUtilFiles "v2" "a") 1 := by decide
  have hselected := hcovered 1 ((lockChange (hashOf rootAndUtilHashes)).lookup_ne (hashOf_injective _) hinputs)
  unfold Selected at hselected
  change match rootAndUtil.packagesForPaths [lockPath] with
    | none => True
    | some owners => _ at hselected
  rw [hpackages] at hselected
  exact absurd hselected (by decide)

/-! ## Packages apart from each other -/

namespace Change

variable {hash : Bytes → String} {m : Metadata} {includeDev : Bool}

/-- A change touches a package: it changes the lock file, or a file below the directory of the package
outside the directories that are left out. -/
def Touches (c : Change hash m includeDev) (id : NodeId) : Prop :=
  osPath (m.workspaceRoot ++ ["Cargo.lock"]) ∈ c.paths ∨
    ∃ node dir path, c.build.packageGraph.node id = some node ∧ c.build.packageDir node.payload = .ok dir ∧
      path ≠ [] ∧ packageFilter.reads (osPath dir) path = true ∧ osPath dir ++ path ∈ c.paths

/-- The inputs of a package that is not touched do not change. -/
theorem touches_of_inputText_ne (c : Change hash m includeDev) {id : NodeId}
    (hother : c.build.inputText c.before id ≠ c.build.inputText c.after id) : c.Touches id := by
  by_contra huntouched
  obtain ⟨hlock, hfiles⟩ := not_or.mp huntouched
  refine hother ?_
  unfold Build.inputText
  cases hnode : c.build.packageGraph.node id with
  | none => rfl
  | some node =>
    cases hdir : c.build.packageDir node.payload with
    | error e => simp only [hdir]
    | ok dir =>
      have hlockSame : c.build.lockFile c.before = c.build.lockFile c.after := by
        rw [c.exactly, not_not] at hlock
        rw [Build.lockFile, Build.lockFile, c.project]
        exact hlock
      have hwalk : hashedFiles packageFilter (osPath dir) (c.before.descend (osPath dir)) =
          hashedFiles packageFilter (osPath dir) (c.after.descend (osPath dir)) := by
        refine hashedFiles_congr c.distinct c.distinct' fun path hne hread => ?_
        by_contra hchanged
        exact hfiles ⟨node, dir, path, hnode, hdir, hne, hread, (c.exactly _).mpr hchanged⟩
      simp only [hdir, packageInputText, hashDirectoryFiltered, hwalk, hlockSame]

/-- No member has its directory inside that of another one, and all members have the sources of their
targets in their directories. -/
structure Apart (m : Metadata) : Prop where
  dirs : ∀ package ∈ m.memberPackages, ∀ package' ∈ m.memberPackages, ∀ dir dir',
    parent package.manifestPath = some dir → parent package'.manifestPath = some dir' →
      osPath dir <+: osPath dir' → package = package'
  targets : ∀ package ∈ m.memberPackages, ∀ target ∈ package.targets,
    ∃ dir, parent package.manifestPath = some dir ∧ osPath dir <+: osPath target.srcPath

/-- The directory of a package is above all files that belong to it when its targets are in it. -/
theorem Apart.dir_prefix {m : Metadata} (h : Apart m) {package : Package} (hmember : package ∈ m.memberPackages)
    {path : Path} (howned : package.owned path = true) :
    ∃ dir, parent package.manifestPath = some dir ∧ osPath dir <+: path := by
  rcases Bool.or_eq_true_iff.mp howned with hbelow | htarget
  · cases hdir : parent package.manifestPath with
    | none => simp [hdir] at hbelow
    | some dir =>
      rw [hdir] at hbelow
      exact ⟨dir, rfl, List.isPrefixOf_iff_prefix.mp hbelow⟩
  · obtain ⟨target, htarget, hsame⟩ := List.any_eq_true.mp htarget
    obtain ⟨dir, hdir, hprefix⟩ := h.targets package hmember target htarget
    exact ⟨dir, hdir, eq_of_beq hsame ▸ hprefix⟩

/-- When the members are apart, a file below the directory of a member is owned by it. -/
theorem Apart.mostSpecific {m : Metadata} (h : Apart m) {package : Package} (hmember : package ∈ m.memberPackages)
    {dir : PathBuf} (hdir : parent package.manifestPath = some dir) {path : Path} (hbelow : osPath dir <+: path) :
    MostSpecific m.memberPackages path package := by
  have howned : package.owned path = true := by
    unfold Package.owned
    rw [hdir, Bool.or_eq_true_iff]
    exact .inl (List.isPrefixOf_iff_prefix.mpr hbelow)
  cases hfound : bestOwner path m.memberPackages none with
  | none => exact absurd howned (by simp [bestOwner_eq_none_iff.mp hfound package hmember])
  | some best =>
    obtain ⟨-, hspecific⟩ := bestOwner_eq_some_iff.mp hfound
    obtain ⟨dir', hdir', hbelow'⟩ := h.dir_prefix hspecific.mem hspecific.owned
    have hsame : package = best.1 := by
      rcases List.prefix_or_prefix_of_prefix hbelow hbelow' with hle | hle
      · exact h.dirs package hmember best.1 hspecific.mem dir dir' hdir hdir' hle
      · exact (h.dirs best.1 hspecific.mem package hmember dir' dir hdir' hdir hle).symm
    rw [hsame]
    exact hspecific

/-- When the members are apart and the lock file did not change, every package whose fingerprint changed is
selected. -/
theorem covered_of_apart {c : Change hash m includeDev} (hapart : Apart m)
    (hlock : osPath (m.workspaceRoot ++ ["Cargo.lock"]) ∉ c.paths) : c.Covered := by
  refine covered_of_ownersNeeded (.inr fun id hinputs => ?_)
  obtain ⟨node, dir, path, hnode, hdir, -, -, hpath⟩ := (c.touches_of_inputText_ne hinputs).resolve_left hlock
  obtain ⟨package, hpackage, hparent⟩ : ∃ package, m.package node.payload = some package ∧
      parent package.manifestPath = some dir := by
    unfold Build.packageDir at hdir
    rw [c.project] at hdir
    split at hdir
    · exact absurd hdir nofun
    · rename_i package hpackage
      split at hdir
      · exact absurd hdir nofun
      · rename_i hparent
        exact ⟨package, hpackage, hparent.trans (congrArg some (Except.ok.inj hdir))⟩
  have hmember : package ∈ m.memberPackages := by
    rw [c.whole] at hnode
    exact List.mem_filterMap.mpr ⟨node.payload, Metadata.payload_mem_workspaceMembers hnode, hpackage⟩
  have hid : package.id = node.payload := by simpa using List.find?_some hpackage
  refine ⟨_, hpath, package, hapart.mostSpecific hmember hparent (List.prefix_append _ _), id, ?_, .refl⟩
  rw [hnode, hid]
  rfl

end Change

end Forge.Backend.Rust
