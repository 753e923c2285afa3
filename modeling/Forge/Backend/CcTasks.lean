import Forge.Backend.Cc
import Forge.Backend.CcFingerprint
import Forge.Executor.Task
import Forge.Fingerprint.Combine
import Forge.Graph.Built

/-!
# The tasks of the C and C++ backend

A graph has one task for each source and a task that links the objects and waits for all of
them. The object of a source, its dependency file and its key are named after the stem of
the source alone, so that sources in different directories or with different extensions can
share them.
-/

namespace Forge.Backend.Cc

open Forge.Common Forge.Graph Forge.Graph.BuildGraph Forge.Fingerprint Forge.Executor

/-- Why there are no tasks. -/
inductive CreateError where
  | graph (e : GraphError)
  | panic
deriving DecidableEq, Repr

/-- The namespace of a project directory, with slashes for backslashes. -/
def namespaceOf (hash : Bytes → String) (projectDir : String) : String :=
  String.ofList ((hash (utf8Bytes (String.ofList (projectDir.toList.map fun c => if c = '\\' then '/' else c)))).toList.take 12)

/-- The name that is used for a source. -/
def sourceStem (source : String) : String :=
  (fileStem source).getD "source"

/-- The directory of the objects. -/
def objectDir (outputDir : String) : String :=
  joinPath outputDir "objs"

/-- The backend with its compiler. -/
structure CcBackend where
  compiler : CcCompiler

/-- A project: its configuration, its directory, and the directory of what is made. -/
structure CcProject where
  config : CcProjectConfig
  projectDir : String
  outputDir : String

namespace CcProject

/-- The sources. -/
def sources (p : CcProject) : List String :=
  p.config.resolveSources p.projectDir

/-- The directories of headers. -/
def includes (p : CcProject) : List String :=
  p.config.resolveIncludes p.projectDir

/-- What the link command makes. -/
def finalOutput (p : CcProject) : String :=
  joinPath p.outputDir p.config.name

end CcProject

namespace CcBackend

variable (hash : Bytes → String) (b : CcBackend) (p : CcProject)

/-- Whether the compiler takes its arguments the other way. -/
def isMsvc : Bool :=
  b.compiler.family = .msvc

/-- The flags for the language of the compiler. -/
def flags : List String :=
  match b.compiler.language with
  | .c => p.config.cflags
  | .cpp => p.config.cxxflags

/-- The object of a source. -/
def objectPath (source : String) : String :=
  joinPath (objectDir p.outputDir) (sourceStem source ++ "." ++ objectExtension b.isMsvc)

/-- The dependency file of a source. -/
def depfilePath (source : String) : Option String :=
  if b.isMsvc then none else some (joinPath (objectDir p.outputDir) (sourceStem source ++ ".d"))

/-- The command that compiles a source. -/
def compileSpec (source : String) : CommandSpec :=
  let (prog, args) :=
    b.compiler.compileObjectArgs source (b.objectPath p source) p.includes (b.flags p) (b.depfilePath p source)
  { CommandSpec.new prog with args := args, cwd := some p.projectDir }

/-- The fingerprint of a source without an object. -/
def rebuildMarker (source : String) : String :=
  "rebuild_" ++ hash (utf8Bytes source)

/-- The fingerprint of a source, none if the program panics. -/
def fingerprintVal (files : FileSystem) (source : String) : Option String :=
  if !pathExists files (b.objectPath p source) then some (rebuildMarker hash source)
  else
    match computeSourceFingerprint hash files source p.includes (b.flags p) b.compiler.version (b.depfilePath p source) with
    | .ok fingerprint => some fingerprint
    | .error .io => some "no_fp"
    | .error .panic => none

/-- The key of a source. -/
def cacheKey (source : String) : String :=
  formatCacheKey "cc" (namespaceOf hash p.projectDir) p.config.name (sourceStem source)

/-- The task that compiles a source, with a given fingerprint. -/
def compileTask (source fingerprint : String) : Task :=
  let spec := b.compileSpec p source
  { Task.new ("compile " ++ source) spec.commandLine spec with cache := some ⟨cacheKey hash p source, fingerprint⟩ }

/-- The task that links the objects. -/
def linkTask : Task :=
  let (prog, args) :=
    b.compiler.linkArgs (p.sources.map (b.objectPath p)) p.finalOutput p.config.ldflags p.config.outputType
  let spec := { CommandSpec.new prog with args := args, cwd := some p.projectDir }
  Task.new ("link " ++ p.config.name) spec.commandLine spec

/-- Add a task for every source. -/
def addCompileTasks (files : FileSystem) : List String → List NodeId → BuildGraph Task →
    Except CreateError (List NodeId × BuildGraph Task)
  | [], compileIds, graph => .ok (compileIds, graph)
  | source :: sources, compileIds, graph =>
    match b.fingerprintVal hash p files source with
    | none => .error .panic
    | some fingerprint =>
      let (node, graph) := graph.addNode (b.compileTask hash p source fingerprint)
      addCompileTasks files sources (compileIds ++ [node]) graph

/-- The tasks of a project. -/
def createTasksFromConfig (files : FileSystem) : Except CreateError (BuildGraph Task) :=
  match b.addCompileTasks hash p files p.sources [] BuildGraph.new with
  | .error e => .error e
  | .ok (compileIds, graph) =>
    let (linkNode, graph) := graph.addNode (b.linkTask p)
    match addDependencies linkNode compileIds graph with
    | (.error e, _) => .error (.graph e)
    | (.ok (), graph) => .ok graph

/-! ## The graph -/

variable {hash b p}

/-- Tasks for sources in a graph without edges. -/
structure Compiling (hash : Bytes → String) (b : CcBackend) (p : CcProject) (files : FileSystem)
    (sources : List String) (compileIds : List NodeId) (graph : BuildGraph Task) : Prop where
  wellFormed : graph.WellFormed
  edgeless : ∀ id, graph.depList id = [] ∧ graph.dependentList id = []
  ids : compileIds = List.range sources.length
  tasks : List.Forall₂ (fun source task => ∃ fingerprint, b.fingerprintVal hash p files source = some fingerprint ∧
    task = b.compileTask hash p source fingerprint) sources (graph.nodes.map (·.payload))

/-- The tasks for further sources come behind those for the first ones. -/
theorem Compiling.addCompileTasks {files : FileSystem} {done rest : List String} {compileIds compileIds' : List NodeId}
    {graph graph' : BuildGraph Task} (h : Compiling hash b p files done compileIds graph)
    (hok : b.addCompileTasks hash p files rest compileIds graph = .ok (compileIds', graph')) :
    Compiling hash b p files (done ++ rest) compileIds' graph' := by
  induction rest generalizing done compileIds graph with
  | nil =>
    obtain ⟨rfl, rfl⟩ := Prod.mk.inj (Except.ok.inj hok)
    rw [List.append_nil]
    exact h
  | cons source rest ih =>
    rw [CcBackend.addCompileTasks] at hok
    split at hok
    · exact absurd hok nofun
    · rename_i fingerprint hfingerprint
      have hlen : graph.nodes.length = done.length := by
        have hlength := h.tasks.length_eq
        rw [List.length_map] at hlength
        exact hlength.symm
      have hnext : Compiling hash b p files (done ++ [source]) (compileIds ++ [graph.nodes.length])
          (graph.addNode (b.compileTask hash p source fingerprint)).2 :=
        { wellFormed := h.wellFormed.addNode _
          edgeless := by simpa using h.edgeless
          ids := by rw [h.ids, hlen, List.length_append, List.length_singleton, List.range_succ]
          tasks := by
            rw [addNode, List.map_append]
            exact List.rel_append h.tasks (.cons ⟨fingerprint, hfingerprint, rfl⟩ .nil) }
      rw [List.append_cons]
      exact ih hnext hok

/-- What the graph of a project looks like: tasks for the sources, and a task that waits for all of them. -/
structure Linked (hash : Bytes → String) (b : CcBackend) (p : CcProject) (files : FileSystem) (g : BuildGraph Task) :
    Prop where
  tasks : ∃ compileTasks, List.Forall₂ (fun source task => ∃ fingerprint,
      b.fingerprintVal hash p files source = some fingerprint ∧ task = b.compileTask hash p source fingerprint)
    p.sources compileTasks ∧ g.nodes.map (·.payload) = compileTasks ++ [b.linkTask p]
  linkDeps : g.depList p.sources.length = List.range p.sources.length
  compileDeps : ∀ id ≠ p.sources.length, g.depList id = []

/-- Once there are tasks for the sources, their objects are linked. -/
theorem createTasksFromConfig_of_compile {files : FileSystem} {compileIds : List NodeId} {graph : BuildGraph Task}
    (hcompile : b.addCompileTasks hash p files p.sources [] BuildGraph.new = .ok (compileIds, graph)) :
    ∃ g, b.createTasksFromConfig hash p files = .ok g ∧ Linked hash b p files g := by
  have hnew : Compiling hash b p files [] [] BuildGraph.new :=
    { wellFormed := WellFormed.new
      edgeless := fun id => ⟨rfl, rfl⟩
      ids := rfl
      tasks := .nil }
  have hdone := hnew.addCompileTasks hcompile
  rw [List.nil_append] at hdone
  have hlen : graph.nodes.length = p.sources.length := by
    have hlength := hdone.tasks.length_eq
    rw [List.length_map] at hlength
    exact hlength.symm
  have hsink : (graph.addNode (b.linkTask p)).2.dependentList graph.nodes.length = [] := by
    rw [dependentList_addNode]
    exact (hdone.edgeless _).2
  have hchild : graph.nodes.length < (graph.addNode (b.linkTask p)).2.len := by
    rw [len_addNode]
    exact Nat.lt_succ_self _
  have hdeps : ∀ dep ∈ compileIds, dep < (graph.addNode (b.linkTask p)).2.len ∧ dep ≠ graph.nodes.length := by
    intro dep hdep
    rw [hdone.ids, List.mem_range] at hdep
    rw [len_addNode, show graph.len = p.sources.length from hlen, hlen]
    exact ⟨Nat.lt_succ_of_lt hdep, Nat.ne_of_lt hdep⟩
  obtain ⟨g, hadded, hnodes, hself, hothers⟩ :=
    (hdone.wellFormed.addNode (b.linkTask p)).addDependencies_sink hchild hsink hdeps
  refine ⟨g, ?_, ⟨graph.nodes.map (·.payload), hdone.tasks, ?_⟩, ?_, ?_⟩
  · rw [createTasksFromConfig, hcompile]
    dsimp only
    rw [show (graph.addNode (b.linkTask p)).1 = graph.nodes.length from rfl, hadded]
  · rw [hnodes, addNode, List.map_append]
    rfl
  · rw [← hlen, hself, depList_addNode, (hdone.edgeless _).1, List.nil_append, hdone.ids, hlen]
  · intro id hid
    rw [← hlen] at hid
    rw [hothers id hid, depList_addNode]
    exact (hdone.edgeless id).1

/-- The graph of a project links the objects of its sources. -/
theorem createTasksFromConfig_linked {files : FileSystem} {g : BuildGraph Task}
    (hok : b.createTasksFromConfig hash p files = .ok g) : Linked hash b p files g := by
  cases hcompile : b.addCompileTasks hash p files p.sources [] BuildGraph.new with
  | error e =>
    rw [createTasksFromConfig, hcompile] at hok
    exact absurd hok nofun
  | ok added =>
    obtain ⟨g', hok', hlinked⟩ := createTasksFromConfig_of_compile hcompile
    obtain rfl := Except.ok.inj (hok'.symm.trans hok)
    exact hlinked

/-- There are tasks for sources when the program does not panic on one of them. -/
theorem exists_addCompileTasks {files : FileSystem} {sources : List String}
    (hsources : ∀ source ∈ sources, (b.fingerprintVal hash p files source).isSome) (compileIds : List NodeId)
    (graph : BuildGraph Task) : ∃ added, b.addCompileTasks hash p files sources compileIds graph = .ok added := by
  induction sources generalizing compileIds graph with
  | nil => exact ⟨_, rfl⟩
  | cons source sources ih =>
    obtain ⟨hsource, hrest⟩ := List.forall_mem_cons.mp hsources
    obtain ⟨fingerprint, hfingerprint⟩ := Option.isSome_iff_exists.mp hsource
    rw [addCompileTasks, hfingerprint]
    exact ih hrest _ _

/-- There is a graph when the program does not panic on a source. -/
theorem exists_createTasksFromConfig {files : FileSystem}
    (hsources : ∀ source ∈ p.sources, (b.fingerprintVal hash p files source).isSome) :
    ∃ g, b.createTasksFromConfig hash p files = .ok g := by
  obtain ⟨⟨compileIds, graph⟩, hcompile⟩ := exists_addCompileTasks hsources [] BuildGraph.new
  obtain ⟨g, hok, -⟩ := createTasksFromConfig_of_compile hcompile
  exact ⟨g, hok⟩

/-- Nothing is read for a source without an object. -/
theorem fingerprintVal_of_missing {files : FileSystem} {source : String}
    (hmissing : pathExists files (b.objectPath p source) = false) :
    b.fingerprintVal hash p files source = some (rebuildMarker hash source) := by
  rw [fingerprintVal, hmissing, Bool.not_false, if_pos rfl]

/-- There is a graph for a project without files. -/
theorem exists_createTasksFromConfig_empty (hash : Bytes → String) (b : CcBackend) (p : CcProject) :
    ∃ g, b.createTasksFromConfig hash p ∅ = .ok g := by
  refine exists_createTasksFromConfig fun source _ => ?_
  rw [fingerprintVal_of_missing]
  · rfl
  · rw [pathExists, AList.lookup_empty]
    rfl

/-! ## Names of objects -/

/-- The name of a source has no slash in it. -/
theorem slash_notMem_sourceStem (source : String) : '/' ∉ (sourceStem source).toList := by
  unfold sourceStem
  cases hstem : fileStem source with
  | none => exact (by decide : '/' ∉ "source".toList)
  | some stem => exact slash_notMem_fileStem hstem

/-- A name with a letter at its end is a component of a path. -/
theorem plain_of_last {name : String} {last : Char} (hslash : '/' ∉ name.toList) (hlast : name.toList.getLast? = some last)
    (hletter : last ≠ '.') : Plain name where
  noSlash := hslash
  part := by
    have hnil : name.toList ≠ [] := fun h => absurd (h ▸ hlast) nofun
    have hpoint : name.toList ≠ ['.'] := by
      intro h
      rw [h] at hlast
      exact hletter (Option.some.inj hlast).symm
    have hpoints : name.toList ≠ ['.', '.'] := by
      intro h
      rw [h] at hlast
      exact hletter (Option.some.inj hlast).symm
    rw [pieceComponent, if_neg (not_or.mpr ⟨hnil, hpoint⟩), if_neg hpoints, String.ofList_toList]

/-- The name of the file that is made for a source. -/
theorem plain_fileFor (source : String) {extension : String} (last : Char) (hslash : '/' ∉ extension.toList)
    (hlast : extension.toList.getLast? = some last) (hletter : last ≠ '.') : Plain (sourceStem source ++ extension) := by
  have hne : extension.toList ≠ [] := fun h => absurd (h ▸ hlast) nofun
  refine plain_of_last ?_ ?_ hletter
  · rw [String.toList_append, List.mem_append, not_or]
    exact ⟨slash_notMem_sourceStem source, hslash⟩
  · rw [String.toList_append, List.getLast?_append_of_ne_nil _ hne, hlast]

/-- The extension of an object with its point. -/
def objectSuffix (b : CcBackend) : String :=
  "." ++ objectExtension b.isMsvc

/-- The name of an object. -/
theorem plain_object (b : CcBackend) (source : String) : Plain (sourceStem source ++ objectSuffix b) := by
  unfold objectSuffix objectExtension
  cases b.isMsvc
  · exact plain_fileFor source 'o' (by decide) rfl (by decide)
  · exact plain_fileFor source 'j' (by decide) rfl (by decide)

/-- The object of a source by its name. -/
theorem objectPath_eq (source : String) :
    b.objectPath p source = joinPath (objectDir p.outputDir) (sourceStem source ++ objectSuffix b) := by
  rw [objectPath, objectSuffix, String.append_assoc]

/-- The place of an object. -/
theorem components_objectPath (source : String) :
    components (b.objectPath p source) =
      components (objectDir p.outputDir) ++ [.normal (sourceStem source ++ objectSuffix b)] := by
  rw [objectPath_eq, components_joinPath (plain_object b source)]

/-- The place of a dependency file. -/
theorem components_depfile {source depfile : String} (hdepfile : b.depfilePath p source = some depfile) :
    components depfile = components (objectDir p.outputDir) ++ [.normal (sourceStem source ++ ".d")] := by
  unfold depfilePath at hdepfile
  split at hdepfile
  · exact absurd hdepfile nofun
  · obtain rfl := Option.some.inj hdepfile
    exact components_joinPath (plain_fileFor source 'd' (by decide) rfl (by decide)) _

/-- The directory of the objects ends with its name. -/
theorem objectDir_last (outputDir : String) : (objectDir outputDir).toList.getLast? = some 's' ∧
    4 ≤ (objectDir outputDir).toList.length := by
  have hplain : Plain "objs" := ⟨by decide, by decide⟩
  rw [objectDir, joinPath_plain hplain, String.toList_append, List.length_append,
    List.getLast?_append_of_ne_nil _ hplain.ne_nil]
  exact ⟨rfl, Nat.le_add_left 4 _⟩

/-- The argument for an object. -/
theorem cleanPath_objectPath (source : String) :
    cleanPath (b.objectPath p source) =
      cleanPath (objectDir p.outputDir) ++ "/" ++ (sourceStem source ++ objectSuffix b) := by
  obtain ⟨hlast, hlength⟩ := objectDir_last p.outputDir
  rw [objectPath_eq, joinPath_plain (plain_object b source), hlast, Option.getD_some, if_neg (by decide),
    String.append_assoc, cleanPath_append hlength, String.append_assoc]

/-! ## Sources that are kept apart -/

/-- The tasks of a graph keep the sources apart: the places of objects and dependency files and the keys are
different, the link command has every object once, and it waits for the compile tasks. -/
structure SourcesApart (b : CcBackend) (p : CcProject) (g : BuildGraph Task) : Prop where
  objects : (p.sources.map fun source => components (b.objectPath p source)).Nodup
  depfiles : ((p.sources.filterMap (b.depfilePath p)).map components).Nodup
  keys : ((g.nodes.take p.sources.length).map fun node => node.payload.cache.map (·.key)).Nodup
  linked : ∀ link, g.node p.sources.length = some link → ∀ source ∈ p.sources,
    link.payload.spec.args.count (cleanPath (b.objectPath p source)) = 1
  waits : ∀ id, id ∈ g.depList p.sources.length ↔ id < p.sources.length

/-- The stems of the sources are different, and no other argument of the link command is spelled like an
object. -/
structure NamesApart (b : CcBackend) (p : CcProject) : Prop where
  stems : (p.sources.map sourceStem).Nodup
  output : ∀ source ∈ p.sources,
    b.compiler.outputArg p.finalOutput p.config.outputType ≠ cleanPath (b.objectPath p source)
  flags : ∀ source ∈ p.sources,
    cleanPath (b.objectPath p source) ∉ CcCompiler.usedFlags p.config.ldflags p.config.outputType

/-- The compile tasks of a linked graph have the keys of their sources, in their order. -/
theorem Linked.keys_eq {files : FileSystem} {g : BuildGraph Task} (h : Linked hash b p files g) :
    (g.nodes.take p.sources.length).map (fun node => node.payload.cache.map (·.key)) =
      p.sources.map fun source => some (cacheKey hash p source) := by
  obtain ⟨compileTasks, htasks, hpayloads⟩ := h.tasks
  have htake : (g.nodes.take p.sources.length).map (·.payload) = compileTasks := by
    rw [List.map_take, hpayloads, htasks.length_eq, List.take_left]
  have hkeys : (g.nodes.take p.sources.length).map (fun node => node.payload.cache.map (·.key)) =
      compileTasks.map fun task => task.cache.map (·.key) := by
    rw [← htake, List.map_map]
    rfl
  rw [hkeys]
  generalize p.sources = sources at htasks
  clear htake hkeys hpayloads
  induction htasks with
  | nil => rfl
  | cons htask _ ih =>
    obtain ⟨fingerprint, -, rfl⟩ := htask
    rw [List.map_cons, List.map_cons, ih]
    rfl

/-- The last task of a linked graph is the link task. -/
theorem Linked.link_eq {files : FileSystem} {g : BuildGraph Task} (h : Linked hash b p files g) {link : Node Task}
    (hlink : g.node p.sources.length = some link) : link.payload = b.linkTask p := by
  obtain ⟨compileTasks, htasks, hpayloads⟩ := h.tasks
  have hpayload : (g.nodes.map (·.payload))[p.sources.length]? = some link.payload := by
    rw [List.getElem?_map, show g.nodes[p.sources.length]? = some link from hlink]
    rfl
  rw [hpayloads, htasks.length_eq, List.getElem?_append_right le_rfl, Nat.sub_self] at hpayload
  exact (Option.some.inj hpayload).symm

/-- The compile task of a source in a graph. -/
theorem Linked.compile_eq {files : FileSystem} {g : BuildGraph Task} (h : Linked hash b p files g) {id : NodeId}
    {node : Node Task} {source : String} (hnode : g.node id = some node) (hsource : p.sources[id]? = some source) :
    ∃ fingerprint, b.fingerprintVal hash p files source = some fingerprint ∧
      node.payload = b.compileTask hash p source fingerprint := by
  obtain ⟨compileTasks, htasks, hpayloads⟩ := h.tasks
  have hlt : id < compileTasks.length := htasks.length_eq ▸ (List.getElem?_eq_some_iff.mp hsource).1
  have hpayload : (g.nodes.map (·.payload))[id]? = some node.payload := by
    rw [List.getElem?_map, show g.nodes[id]? = some node from hnode]
    rfl
  rw [hpayloads, List.getElem?_append_left hlt] at hpayload
  obtain ⟨hlt', htask⟩ := List.getElem?_eq_some_iff.mp hpayload
  obtain ⟨hlt'', hsource'⟩ := List.getElem?_eq_some_iff.mp hsource
  have hrel := List.Forall₂.get htasks hlt'' hlt'
  rw [List.get_eq_getElem, List.get_eq_getElem, hsource', htask] at hrel
  exact hrel

/-- No fixed word of a link command is spelled like an object. -/
theorem cleanPath_objectPath_notMem (source : String) :
    cleanPath (b.objectPath p source) ∉ CcCompiler.linkWords := by
  intro hmem
  have hpoints : ∀ word ∈ CcCompiler.linkWords, '.' ∉ word.toList := by decide
  apply hpoints _ hmem
  rw [cleanPath_objectPath, objectSuffix]
  simp

/-- Objects are spelled differently when they have different stems. -/
theorem cleanPath_objectPath_inj {source source' : String}
    (hsame : cleanPath (b.objectPath p source) = cleanPath (b.objectPath p source')) :
    sourceStem source = sourceStem source' := by
  have hchars := congrArg String.toList hsame
  simp only [cleanPath_objectPath, String.toList_append, List.append_cancel_left_eq, List.append_cancel_right_eq] at hchars
  exact String.toList_injective hchars

/-- Objects are in different places when they have different stems. -/
theorem components_objectPath_inj {source source' : String}
    (hsame : components (b.objectPath p source) = components (b.objectPath p source')) :
    sourceStem source = sourceStem source' := by
  rw [components_objectPath, components_objectPath] at hsame
  have hnames := Component.normal.inj (List.cons.inj (List.append_cancel_left hsame)).1
  have hchars := congrArg String.toList hnames
  simp only [String.toList_append, List.append_cancel_right_eq] at hchars
  exact String.toList_injective hchars

/-- Keys are different when they are for different stems. -/
theorem cacheKey_inj {source source' : String} (hsame : cacheKey hash p source = cacheKey hash p source') :
    sourceStem source = sourceStem source' := by
  have hchars := congrArg String.toList hsame
  simp only [cacheKey, formatCacheKey, String.toList_append, List.append_cancel_left_eq] at hchars
  exact String.toList_injective hchars

/-- Dependency files are in different places when they have different stems. -/
theorem depfiles_nodup (hstems : (p.sources.map sourceStem).Nodup) :
    ((p.sources.filterMap (b.depfilePath p)).map components).Nodup := by
  unfold depfilePath
  cases b.isMsvc with
  | true => simp
  | false =>
    have hplain : ∀ source, Plain (sourceStem source ++ ".d") := fun source =>
      plain_fileFor source 'd' (by decide) rfl (by decide)
    simp only [Bool.false_eq_true, if_false]
    rw [List.filterMap_eq_map', List.map_map]
    refine List.Nodup.map_on ?_ (List.Nodup.of_map _ hstems)
    intro source hsource source' hsource' hsame
    rw [Function.comp_apply, Function.comp_apply, components_joinPath (hplain source),
      components_joinPath (hplain source')] at hsame
    have hnames := Component.normal.inj (List.cons.inj (List.append_cancel_left hsame)).1
    have hchars := congrArg String.toList hnames
    simp only [String.toList_append, List.append_cancel_right_eq] at hchars
    exact List.inj_on_of_nodup_map hstems hsource hsource' (String.toList_injective hchars)

/-- How often a link command has a word that is not fixed. -/
theorem count_linkTask (word : String) (hword : word ∉ CcCompiler.linkWords) :
    (b.linkTask p).spec.args.count word =
      (if b.compiler.outputArg p.finalOutput p.config.outputType = word then 1 else 0) +
        ((p.sources.map fun source => cleanPath (b.objectPath p source)).count word +
          (CcCompiler.usedFlags p.config.ldflags p.config.outputType).count word) := by
  obtain ⟨words, hwords, hargs⟩ :=
    b.compiler.linkArgs_eq (p.sources.map (b.objectPath p)) p.finalOutput p.config.ldflags p.config.outputType
  have hnone : words.count word = 0 := List.count_eq_zero_of_not_mem fun hmem => hword (hwords hmem)
  change (b.compiler.linkArgs (p.sources.map (b.objectPath p)) p.finalOutput p.config.ldflags
    p.config.outputType).2.count word = _
  rw [hargs, List.count_append, List.count_append, List.count_append, hnone, List.map_map, List.count_singleton]
  simp only [Nat.zero_add, beq_iff_eq, Nat.add_assoc, Function.comp_def]

/-- The tasks of a project keep its sources apart exactly when their stems are different and no other argument
of the link command is spelled like an object. -/
theorem sourcesApart_iff {files : FileSystem} {g : BuildGraph Task}
    (hok : b.createTasksFromConfig hash p files = .ok g) : SourcesApart b p g ↔ NamesApart b p := by
  have hlinked := createTasksFromConfig_linked hok
  obtain ⟨compileTasks, htasks, hpayloads⟩ := hlinked.tasks
  obtain ⟨link, hlink⟩ : ∃ link, g.node p.sources.length = some link := by
    have hlength := congrArg List.length hpayloads
    rw [List.length_map, List.length_append, List.length_singleton, ← htasks.length_eq] at hlength
    exact ⟨_, List.getElem?_eq_getElem (by omega)⟩
  have hcount := fun source => count_linkTask (b := b) (p := p) (cleanPath (b.objectPath p source))
    (cleanPath_objectPath_notMem source)
  constructor
  · intro hapart
    have hone := hapart.linked link hlink
    rw [hlinked.link_eq hlink] at hone
    have hobject : ∀ source ∈ p.sources,
        0 < (p.sources.map fun source => cleanPath (b.objectPath p source)).count (cleanPath (b.objectPath p source)) :=
      fun source hsource => List.count_pos_iff.mpr (List.mem_map_of_mem hsource)
    refine ⟨?_, ?_, ?_⟩
    · have hobjects := hapart.objects
      simp only [components_objectPath] at hobjects
      exact List.Nodup.of_map (f := fun stem => components (objectDir p.outputDir) ++ [.normal (stem ++ objectSuffix b)])
        (by rw [List.map_map]; exact hobjects)
    · intro source hsource hsame
      have hargs := hone source hsource
      rw [hcount, if_pos hsame] at hargs
      have hpos := hobject source hsource
      omega
    · intro source hsource hflag
      have hargs := hone source hsource
      rw [hcount] at hargs
      have hpos := hobject source hsource
      have hflags := List.count_pos_iff.mpr hflag
      omega
  · intro hnames
    have hnodup := List.Nodup.of_map _ hnames.stems
    refine ⟨?_, depfiles_nodup hnames.stems, ?_, ?_, ?_⟩
    · refine List.Nodup.map_on ?_ hnodup
      intro source hsource source' hsource' hsame
      exact List.inj_on_of_nodup_map hnames.stems hsource hsource' (components_objectPath_inj hsame)
    · rw [hlinked.keys_eq]
      refine List.Nodup.map_on ?_ hnodup
      intro source hsource source' hsource' hsame
      exact List.inj_on_of_nodup_map hnames.stems hsource hsource' (cacheKey_inj (Option.some.inj hsame))
    · intro link' hlink' source hsource
      have hobjects : (p.sources.map fun source => cleanPath (b.objectPath p source)).Nodup := by
        refine List.Nodup.map_on ?_ hnodup
        intro source hsource source' hsource' hsame
        exact List.inj_on_of_nodup_map hnames.stems hsource hsource' (cleanPath_objectPath_inj hsame)
      rw [hlinked.link_eq hlink', hcount, if_neg (hnames.output source hsource),
        List.count_eq_one_of_mem hobjects (List.mem_map_of_mem hsource),
        List.count_eq_zero_of_not_mem (hnames.flags source hsource)]
    · intro id
      rw [hlinked.linkDeps, List.mem_range]

/-- A compiler for C. -/
def sampleBackend : CcBackend := ⟨⟨"gcc", .gcc, "gcc 13.2.0", .c⟩⟩

/-- A project with two sources. -/
def sampleProject (first second : String) : CcProject :=
  ⟨⟨"hello", .c, [first, second], ["include"], ["-O2"], [], ["-lm"], .executable⟩, "/p", "/p/build"⟩

/-- Two sources with different stems are kept apart. -/
theorem sourcesApart_main_util :
    ∃ g, sampleBackend.createTasksFromConfig (fun _ => "") (sampleProject "src/main.c" "src/util.c") ∅ = .ok g ∧
      SourcesApart sampleBackend (sampleProject "src/main.c" "src/util.c") g := by
  obtain ⟨g, hok⟩ :=
    exists_createTasksFromConfig_empty (fun _ => "") sampleBackend (sampleProject "src/main.c" "src/util.c")
  refine ⟨g, hok, (sourcesApart_iff hok).mpr ⟨?_, ?_, ?_⟩⟩ <;> decide

/-- Two sources of the same name in different directories share their object. -/
theorem not_sourcesApart_same_name :
    ((sampleProject "src/util.c" "lib/util.c").sources.map components).Nodup ∧
      ∃ g, sampleBackend.createTasksFromConfig (fun _ => "") (sampleProject "src/util.c" "lib/util.c") ∅ = .ok g ∧
        ¬ SourcesApart sampleBackend (sampleProject "src/util.c" "lib/util.c") g := by
  obtain ⟨g, hok⟩ :=
    exists_createTasksFromConfig_empty (fun _ => "") sampleBackend (sampleProject "src/util.c" "lib/util.c")
  refine ⟨by decide +kernel, g, hok, fun hapart => ?_⟩
  exact absurd hapart.objects (by decide +kernel)

end CcBackend

end Forge.Backend.Cc
