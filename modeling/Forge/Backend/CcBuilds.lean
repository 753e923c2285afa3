import Forge.Backend.CcTasks
import Forge.Backend.Identity
import Forge.Cache.ToolRuns
import Forge.Common.Histories

/-!
# Incremental builds of C and C++ projects

Between builds the sources and headers are edited, and the directory of what is made may be
deleted. A build makes the graph, with fingerprints of what it finds, and runs the compile
tasks through the cache. The compiler is ideal: what it makes of a source is a function of
the command and of the files that it reads, and the dependency file lists these files.

A cached answer means that the same was found for the source by the graph of its last
compilation. That says what was compiled as long as the object was there both times and the
bytes that are hashed tell the files that are read.
-/

namespace Forge.Backend.Cc

open Forge.Common Forge.Graph Forge.Graph.BuildGraph Forge.Fingerprint Forge.Executor Forge.Cache

/-- What a compilation makes. -/
structure CcOutput where
  object : Bytes
  dependencies : Bytes
deriving DecidableEq, Repr

/-- A compiler whose output is a function of its command and of the files that it reads: the source and the
headers that it includes. The dependency file lists these files. -/
structure IdealCompiler where
  reads : CommandSpec → FileSystem → List (List Component)
  output : CommandSpec → FileSystem → Option CcOutput
  depends : ∀ spec (files files' : FileSystem), (∀ path ∈ reads spec files, files'.lookup path = files.lookup path) →
    reads spec files' = reads spec files ∧ output spec files' = output spec files
  listed : ∀ spec files out, output spec files = some out →
    ∃ deps, (fromUtf8 out.dependencies).bind parseDepfile = some deps ∧
      deps.map (fun dep => components (joinPath (spec.cwd.getD "") dep)) = reads spec files

/-- What a compiler and a linker do to files. -/
structure Tools where
  compiler : IdealCompiler
  linker : FileSystem → Option Bytes

/-- A step in the life of a project: a file is edited or deleted, the directory of what is made is deleted,
the cache is opened in another process, or the project is built. A build goes through compile tasks, and the
link task if it gets there. -/
inductive Event where
  | edit (path : List Component) (entry : Option Entry)
  | clean
  | restart (process : ℕ)
  | build (order : List (NodeId × CacheIo)) (link : Option CacheIo)

/-- What a compilation started from: the files when its graph was made, and when it read them. -/
structure Compiled where
  asked : FileSystem
  read : FileSystem

/-- A project with its files and its cache, and the last compilation of each source. -/
structure Site where
  shop : Workshop FileSystem
  compiled : NodeId → Option Compiled

/-- A site with an empty cache where nothing was compiled. -/
def Site.new (files : FileSystem) (process : ℕ) : Site :=
  ⟨.new files process, fun _ => none⟩

section Runs

variable (codec : RecordCodec) (hash : Bytes → String) (tools : Tools) (b : CcBackend) (p : CcProject)

/-- Compile a source. -/
def compileTool (source : String) (files : FileSystem) : Option FileSystem :=
  (tools.compiler.output (b.compileSpec p source) files).map fun out =>
    let files := files.insert (components (b.objectPath p source)) (.file out.object)
    match b.depfilePath p source with
    | some depfile => files.insert (components depfile) (.file out.dependencies)
    | none => files

/-- Link the objects. -/
def linkTool (files : FileSystem) : Option FileSystem :=
  (tools.linker files).map fun bytes => files.insert (components p.finalOutput) (.file bytes)

/-- Run a compile task of a graph that was made for some files. -/
def Site.compile (g : BuildGraph Task) (asked : FileSystem) (s : Site) (call : NodeId × CacheIo) : Site :=
  match g.node call.1, p.sources[call.1]? with
  | some node, some source =>
    let tool := compileTool tools b p source
    { shop := s.shop.perform codec tool node.payload call.2
      compiled :=
        if s.shop.answer codec tool node.payload call.2 = some .executed then
          Function.update s.compiled call.1 (some ⟨asked, s.shop.world⟩)
        else s.compiled }
  | _, _ => s

/-- Run the link task of a graph. -/
def Site.link (g : BuildGraph Task) (s : Site) : Option CacheIo → Site
  | none => s
  | some io =>
    match g.node p.sources.length with
    | some node => { s with shop := s.shop.perform codec (linkTool tools p) node.payload io }
    | none => s

/-- Build the project, unless the program panics. -/
def Site.build (s : Site) (order : List (NodeId × CacheIo)) (link : Option CacheIo) : Site :=
  match b.createTasksFromConfig hash p s.shop.world with
  | .error _ => s
  | .ok g => Site.link codec tools p g (order.foldl (Site.compile codec tools b p g s.shop.world) s) link

/-- The files without a directory. -/
def deleteDir (files : FileSystem) (dir : List Component) : FileSystem :=
  ⟨files.entries.filter fun entry => !dir.isPrefixOf entry.1,
    (List.filter_sublist.map Sigma.fst).nodup files.nodupKeys⟩

/-- What an event does. -/
def Site.step (s : Site) : Event → Site
  | .edit path entry =>
    { s with shop := { s.shop with world := match entry with
        | some entry => s.shop.world.insert path entry
        | none => s.shop.world.erase path } }
  | .clean => { s with shop := { s.shop with world := deleteDir s.shop.world (components p.outputDir) } }
  | .restart process => { s with shop := s.shop.reopen process }
  | .build order link => s.build codec hash tools b p order link

/-- The site after events. -/
def Site.after (s : Site) (events : List Event) : Site :=
  events.foldl (Site.step codec hash tools b p) s

/-- The object of a source is there, and is what the compiler makes of the current files. -/
def Current (files : FileSystem) (source : String) : Prop :=
  ∃ out, tools.compiler.output (b.compileSpec p source) files = some out ∧
    files.lookup (components (b.objectPath p source)) = some (.file out.object)

/-- In a build, the object of every source that is answered from the cache is current. -/
def Site.BuildCurrent (s : Site) (order : List (NodeId × CacheIo)) : Prop :=
  ∀ g, b.createTasksFromConfig hash p s.shop.world = .ok g → ∀ done id io, done ++ [(id, io)] <+: order →
    ∀ node source, g.node id = some node → p.sources[id]? = some source →
      (done.foldl (Site.compile codec tools b p g s.shop.world) s).shop.answer codec (compileTool tools b p source)
        node.payload io = some .cached →
      Current tools b p (done.foldl (Site.compile codec tools b p g s.shop.world) s).shop.world source

/-- In all builds of a run, the object of every source that is answered from the cache is current. -/
def Site.CachedCurrent (s : Site) (events : List Event) : Prop :=
  ∀ history order link, history ++ [.build order link] <+: events →
    (s.after codec hash tools b p history).BuildCurrent codec hash tools b p order

end Runs

/-- Builds run each task at most once, and the stores of the cache succeed. -/
def Regular (events : List Event) : Prop :=
  ∀ order link, .build order link ∈ events →
    (order.map Prod.fst).Nodup ∧ (∀ call ∈ order, call.2.putFault = none) ∧ ∀ io ∈ link, io.putFault = none

/-! ## What is found for a source -/

/-- What is found for a source when a graph is made. -/
inductive Found where
  | missing
  | hashed (text : Bytes)
  | unreadable
  | panicked
deriving DecidableEq, Repr

namespace CcBackend

variable {hash : Bytes → String} {b : CcBackend} {p : CcProject}

/-- What is found for a source: that it has no object, the text that is hashed for it, or a file that cannot be
read. -/
def found (b : CcBackend) (p : CcProject) (files : FileSystem) (source : String) : Found :=
  if !pathExists files (b.objectPath p source) then .missing
  else
    match sourceText files source p.includes (b.flags p) b.compiler.version (b.depfilePath p source) with
    | .ok text => .hashed text
    | .error .io => .unreadable
    | .error .panic => .panicked

/-- The fingerprint for what is found. -/
def fingerprintOf (hash : Bytes → String) (source : String) : Found → Option String
  | .missing => some (rebuildMarker hash source)
  | .hashed text => some (hash text)
  | .unreadable => some "no_fp"
  | .panicked => none

/-- The fingerprint of a source is the one for what is found. -/
theorem fingerprintVal_eq (files : FileSystem) (source : String) :
    b.fingerprintVal hash p files source = fingerprintOf hash source (b.found p files source) := by
  rw [fingerprintVal, found]
  split
  · rfl
  · rw [computeSourceFingerprint]
    cases sourceText files source p.includes (b.flags p) b.compiler.version (b.depfilePath p source) with
    | ok text => rfl
    | error e => cases e <;> rfl

/-- No hash is a marker. -/
theorem hash_ne_rebuildMarker (hhash : HexHash hash) (text : Bytes) (source : String) :
    hash text ≠ rebuildMarker hash source := by
  intro hsame
  have hplain := (hhash.plain text).2
  rw [hsame, rebuildMarker, String.toList_append] at hplain
  exact hplain (List.mem_append_left _ (by decide))

/-- No marker is the fingerprint of an unreadable source. -/
theorem rebuildMarker_ne_no_fp (source : String) : rebuildMarker hash source ≠ "no_fp" := by
  intro hsame
  have hchars := congrArg String.toList hsame
  rw [rebuildMarker, String.toList_append] at hchars
  exact absurd (List.cons.inj hchars).1 (by decide)

/-- The fingerprint of a source tells what was found. -/
theorem found_eq_of_fingerprint (hhash : HexHash hash) {source fingerprint : String} {found found' : Found}
    (h : fingerprintOf hash source found = some fingerprint) (h' : fingerprintOf hash source found' = some fingerprint) :
    found = found' := by
  cases found with
  | panicked => exact absurd h nofun
  | missing =>
    obtain rfl := Option.some.inj h
    cases found' with
    | panicked => exact absurd h' nofun
    | missing => rfl
    | hashed text => exact absurd (Option.some.inj h') (hash_ne_rebuildMarker hhash text source)
    | unreadable => exact absurd (Option.some.inj h').symm (rebuildMarker_ne_no_fp source)
  | hashed text =>
    obtain rfl := Option.some.inj h
    cases found' with
    | panicked => exact absurd h' nofun
    | missing => exact absurd (Option.some.inj h').symm (hash_ne_rebuildMarker hhash text source)
    | hashed text' => rw [hhash.injective (Option.some.inj h')]
    | unreadable => exact absurd (Option.some.inj h').symm (hhash.ne_no_fp text)
  | unreadable =>
    obtain rfl := Option.some.inj h
    cases found' with
    | panicked => exact absurd h' nofun
    | missing => exact absurd (Option.some.inj h') (rebuildMarker_ne_no_fp source)
    | hashed text => exact absurd (Option.some.inj h') (hhash.ne_no_fp text)
    | unreadable => rfl

end CcBackend

/-! ## Runs in which the fingerprints tell -/

section Good

variable (codec : RecordCodec) (hash : Bytes → String) (tools : Tools) (b : CcBackend) (p : CcProject)

/-- The object or the dependency file of a source. -/
def IsOutput (path : List Component) : Prop :=
  ∃ source ∈ p.sources, path = components (b.objectPath p source) ∨
    ∃ depfile, b.depfilePath p source = some depfile ∧ path = components depfile

/-- Before a build, what is found for a source tells its last compilation: no object is missing for the second
time, the same text is found only for the same files, and none of these files is made by the build. -/
structure Site.Tells (s : Site) : Prop where
  missing : ∀ id source c, p.sources[id]? = some source → s.compiled id = some c →
    b.found p c.asked source = .missing → b.found p s.shop.world source ≠ .missing
  files : ∀ id source c, p.sources[id]? = some source → s.compiled id = some c →
    b.found p c.asked source = b.found p s.shop.world source →
    ∀ path ∈ tools.compiler.reads (b.compileSpec p source) c.read,
      s.shop.world.lookup path = c.read.lookup path ∧ ¬ IsOutput b p path

/-- Before an event, the fingerprints of a build will tell, and no edit and no link task writes an object. -/
def Site.Allows (s : Site) : Event → Prop
  | .edit path _ => ∀ source ∈ p.sources, components (b.objectPath p source) ≠ path
  | .clean => True
  | .restart _ => True
  | .build _ link => s.Tells tools b p ∧
      (link.isSome → ∀ source ∈ p.sources, components (b.objectPath p source) ≠ components p.finalOutput)

/-- Every event of a run is allowed when it happens. -/
def Site.AllowsAll (s : Site) (events : List Event) : Prop :=
  ∀ history event, history ++ [event] <+: events → (s.after codec hash tools b p history).Allows tools b p event

end Good

/-! ## What a compilation changes -/

section Places

open CcBackend

variable {b : CcBackend} {p : CcProject} {tools : Tools}

/-- Sources with the same stem are the same source. -/
theorem index_of_stem (hstems : (p.sources.map sourceStem).Nodup) {id id' : NodeId} {source source' : String}
    (hsource : p.sources[id]? = some source) (hsource' : p.sources[id']? = some source')
    (hstem : sourceStem source = sourceStem source') : id = id' := by
  have hlt : id < (p.sources.map sourceStem).length := by
    rw [List.length_map]
    exact (List.getElem?_eq_some_iff.mp hsource).1
  apply (List.getElem?_inj hlt hstems).mp
  rw [List.getElem?_map, List.getElem?_map, hsource, hsource', Option.map_some, Option.map_some, hstem]

/-- No dependency file is an object. -/
theorem depfile_ne_object {source source' depfile : String} (hdepfile : b.depfilePath p source = some depfile) :
    components (b.objectPath p source') ≠ components depfile := by
  intro hsame
  rw [components_objectPath, components_depfile hdepfile] at hsame
  have hnames := Component.normal.inj (List.cons.inj (List.append_cancel_left hsame)).1
  have hlast := congrArg (fun name : String => name.toList.getLast?) hnames
  have hne : (objectSuffix b).toList ≠ [] := by
    rw [objectSuffix, String.toList_append]
    exact List.cons_ne_nil _ _
  rw [String.toList_append, String.toList_append, List.getLast?_append_of_ne_nil _ hne,
    List.getLast?_append_of_ne_nil _ (by decide)] at hlast
  revert hlast
  unfold objectSuffix objectExtension
  cases b.isMsvc <;> decide

/-- A compilation writes its object, and leaves what is not an output of it. -/
theorem compileTool_lookup {source : String} {files files' : FileSystem}
    (htool : compileTool tools b p source files = some files') :
    ∃ out, tools.compiler.output (b.compileSpec p source) files = some out ∧
      files'.lookup (components (b.objectPath p source)) = some (.file out.object) ∧
      ∀ path, path ≠ components (b.objectPath p source) →
        (∀ depfile, b.depfilePath p source = some depfile → path ≠ components depfile) →
        files'.lookup path = files.lookup path := by
  obtain ⟨out, hout, hfiles⟩ := Option.map_eq_some_iff.mp htool
  refine ⟨out, hout, ?_⟩
  rw [← hfiles]
  dsimp only
  cases hdepfile : b.depfilePath p source with
  | none =>
    exact ⟨AList.lookup_insert _, fun path hobject _ => AList.lookup_insert_ne hobject⟩
  | some depfile =>
    refine ⟨?_, fun path hobject hdep => ?_⟩
    · rw [AList.lookup_insert_ne (depfile_ne_object hdepfile), AList.lookup_insert]
    · rw [AList.lookup_insert_ne (hdep depfile rfl), AList.lookup_insert_ne hobject]

/-- Deleting a directory deletes a file or leaves it. -/
theorem lookup_deleteDir (files : FileSystem) (dir path : List Component) :
    (deleteDir files dir).lookup path = none ∨ (deleteDir files dir).lookup path = files.lookup path := by
  cases hlookup : (deleteDir files dir).lookup path with
  | none => exact Or.inl rfl
  | some entry =>
    right
    have hmem := List.mem_of_mem_filter (AList.mem_lookup_iff.mp hlookup)
    exact (AList.mem_lookup_iff.mpr hmem).symm

end Places

/-! ## What is known between builds -/

section Runs

open CcBackend

variable {codec : RecordCodec} {hash : Bytes → String} {tools : Tools} {b : CcBackend} {p : CcProject}

/-- Between builds, the cache has the fingerprint of the last compilation of each source, and the object is gone
or what this compilation made. -/
structure Site.Inv (codec : RecordCodec) (hash : Bytes → String) (tools : Tools) (b : CcBackend) (p : CcProject)
    (s : Site) : Prop where
  sound : s.shop.Sound codec
  recorded : ∀ id source, p.sources[id]? = some source → s.shop.recorded (cacheKey hash p source) =
    (s.compiled id).bind fun c => fingerprintOf hash source (b.found p c.asked source)
  object : ∀ id source c, p.sources[id]? = some source → s.compiled id = some c →
    s.shop.world.lookup (components (b.objectPath p source)) = none ∨
      ∃ out, tools.compiler.output (b.compileSpec p source) c.read = some out ∧
        s.shop.world.lookup (components (b.objectPath p source)) = some (.file out.object)

/-- Nothing is known at the start. -/
theorem Site.inv_new (files : FileSystem) (process : ℕ) : (Site.new files process).Inv codec hash tools b p where
  sound := Workshop.sound_new files process
  recorded := fun _ _ _ => rfl
  object := fun _ _ _ _ hcompiled => absurd hcompiled nofun

/-- In the middle of a build, what is known still holds, and the sources that were not looked at yet, their
objects and the files that are no outputs are as at the start. -/
structure Site.Building (codec : RecordCodec) (hash : Bytes → String) (tools : Tools) (b : CcBackend) (p : CcProject)
    (s start : Site) (done : List NodeId) : Prop where
  inv : s.Inv codec hash tools b p
  compiled : ∀ id ∉ done, s.compiled id = start.compiled id
  objects : ∀ id source, p.sources[id]? = some source → id ∉ done →
    s.shop.world.lookup (components (b.objectPath p source)) =
      start.shop.world.lookup (components (b.objectPath p source))
  others : ∀ path, ¬ IsOutput b p path → s.shop.world.lookup path = start.shop.world.lookup path

/-- A build starts with what is known. -/
theorem Site.Inv.building {s : Site} (h : s.Inv codec hash tools b p) : s.Building codec hash tools b p s [] where
  inv := h
  compiled := fun _ _ => rfl
  objects := fun _ _ _ _ => rfl
  others := fun _ _ => rfl

/-- Looking at a further source changes nothing when nothing is compiled. -/
theorem Site.Building.skip {start s s' : Site} {done : List NodeId} (h : s.Building codec hash tools b p start done)
    (id : NodeId) (hsound : s'.shop.Sound codec) (hcompiled : s'.compiled = s.compiled)
    (hworld : s'.shop.world = s.shop.world) (hrecorded : ∀ key, s'.shop.recorded key = s.shop.recorded key) :
    s'.Building codec hash tools b p start (done ++ [id]) where
  inv :=
    { sound := hsound
      recorded := by
        intro id source hsource
        rw [hrecorded, hcompiled]
        exact h.inv.recorded id source hsource
      object := by
        rw [hworld, hcompiled]
        exact h.inv.object }
  compiled := by
    intro other hother
    rw [hcompiled]
    exact h.compiled other fun hmem => hother (List.mem_append_left _ hmem)
  objects := by
    intro other source hsource hother
    rw [hworld]
    exact h.objects other source hsource fun hmem => hother (List.mem_append_left _ hmem)
  others := by
    rw [hworld]
    exact h.others

/-- Compiling a further source makes its object. -/
theorem Site.Building.executed {start s s' : Site} {done : List NodeId} (h : s.Building codec hash tools b p start done)
    (hstems : (p.sources.map sourceStem).Nodup) {id : NodeId} {source fingerprint : String}
    (hsource : p.sources[id]? = some source)
    (hfingerprint : b.fingerprintVal hash p start.shop.world source = some fingerprint)
    (hsound : s'.shop.Sound codec)
    (hcompiled : s'.compiled = Function.update s.compiled id (some ⟨start.shop.world, s.shop.world⟩))
    (htool : compileTool tools b p source s.shop.world = some s'.shop.world)
    (hrecorded : ∀ key, s'.shop.recorded key =
      if cacheKey hash p source = key then some fingerprint else s.shop.recorded key) :
    s'.Building codec hash tools b p start (done ++ [id]) := by
  obtain ⟨out, hout, hobject, hothers⟩ := compileTool_lookup htool
  -- The objects of other sources are in other places.
  have hkept : ∀ other source', p.sources[other]? = some source' → other ≠ id →
      s'.shop.world.lookup (components (b.objectPath p source')) =
        s.shop.world.lookup (components (b.objectPath p source')) := by
    intro other source' hsource' hne
    refine hothers _ (fun hsame => ?_) fun depfile hdepfile => depfile_ne_object hdepfile
    exact hne (index_of_stem hstems hsource' hsource (components_objectPath_inj hsame))
  refine ⟨⟨hsound, ?_, ?_⟩, ?_, ?_, ?_⟩
  · intro other source' hsource'
    rw [hrecorded, hcompiled]
    by_cases hid : other = id
    · subst hid
      obtain rfl := Option.some.inj (hsource.symm.trans hsource')
      rw [if_pos rfl, Function.update_self, Option.bind_some, ← fingerprintVal_eq, hfingerprint]
    · rw [if_neg fun hkey => hid (index_of_stem hstems hsource' hsource (cacheKey_inj hkey).symm),
        Function.update_of_ne hid]
      exact h.inv.recorded other source' hsource'
  · intro other source' c hsource' hlast
    rw [hcompiled] at hlast
    by_cases hid : other = id
    · subst hid
      obtain rfl := Option.some.inj (hsource.symm.trans hsource')
      rw [Function.update_self] at hlast
      obtain rfl := Option.some.inj hlast
      exact Or.inr ⟨out, hout, hobject⟩
    · rw [Function.update_of_ne hid] at hlast
      rw [hkept other source' hsource' hid]
      exact h.inv.object other source' c hsource' hlast
  · intro other hother
    obtain ⟨hdone, hid⟩ := not_or.mp (mt List.mem_append.mpr hother)
    rw [hcompiled, Function.update_of_ne fun hsame => hid (List.mem_singleton.mpr hsame)]
    exact h.compiled other hdone
  · intro other source' hsource' hother
    obtain ⟨hdone, hid⟩ := not_or.mp (mt List.mem_append.mpr hother)
    rw [hkept other source' hsource' fun hsame => hid (List.mem_singleton.mpr hsame)]
    exact h.objects other source' hsource' hdone
  · intro path hpath
    have hmem : source ∈ p.sources := List.mem_of_getElem? hsource
    rw [hothers path (fun hsame => hpath ⟨source, hmem, Or.inl hsame⟩)
      fun depfile hdepfile hsame => hpath ⟨source, hmem, Or.inr ⟨depfile, hdepfile, hsame⟩⟩]
    exact h.others path hpath

/-- Running a compile task of the graph of a build. -/
theorem Site.Building.compile {start s : Site} {done : List NodeId} (h : s.Building codec hash tools b p start done)
    (hstems : (p.sources.map sourceStem).Nodup) {g : BuildGraph Task} (hg : Linked hash b p start.shop.world g)
    {call : NodeId × CacheIo} (hwrites : call.2.putFault = none) :
    (Site.compile codec tools b p g start.shop.world s call).Building codec hash tools b p start (done ++ [call.1]) := by
  cases hnode : g.node call.1 with
  | none =>
    rw [Site.compile, hnode]
    exact h.skip call.1 h.inv.sound rfl rfl fun _ => rfl
  | some node =>
    cases hsource : p.sources[call.1]? with
    | none =>
      rw [Site.compile, hnode, hsource]
      exact h.skip call.1 h.inv.sound rfl rfl fun _ => rfl
    | some source =>
      obtain ⟨fingerprint, hfingerprint, htask⟩ := hg.compile_eq hnode hsource
      have hentry : node.payload.cache = some ⟨cacheKey hash p source, fingerprint⟩ := by rw [htask]; rfl
      have hsound := h.inv.sound.perform (compileTool tools b p source) node.payload hwrites
      rw [Site.compile, hnode, hsource]
      dsimp only
      cases h.inv.sound.performed (compileTool tools b p source) call.2 hentry with
      | cached hanswer _ hworld hkept =>
        rw [hanswer, if_neg (by decide)]
        exact h.skip call.1 hsound rfl hworld hkept
      | failed hanswer _ hworld hkept =>
        rw [hanswer, if_neg (by decide)]
        exact h.skip call.1 hsound rfl hworld hkept
      | executed world hanswer htool hworld hrecorded _ =>
        rw [hanswer, if_pos rfl]
        exact h.executed hstems hsource hfingerprint hsound rfl (hworld ▸ htool) hrecorded

/-- In the middle of a build whose fingerprints tell, a source that is answered from the cache has its object. -/
theorem Site.Building.current (hhash : HexHash hash) {start s : Site} {done : List NodeId}
    (h : s.Building codec hash tools b p start done) (htells : start.Tells tools b p) {id : NodeId}
    (hid : id ∉ done) {source : String} (hsource : p.sources[id]? = some source) {fingerprint : String}
    (hfingerprint : b.fingerprintVal hash p start.shop.world source = some fingerprint)
    (hrecorded : s.shop.recorded (cacheKey hash p source) = some fingerprint) :
    Current tools b p s.shop.world source := by
  rw [h.inv.recorded id source hsource, Option.bind_eq_some_iff] at hrecorded
  obtain ⟨c, hcompiled, hasked⟩ := hrecorded
  have hstart : start.compiled id = some c := h.compiled id hid ▸ hcompiled
  have hfound : b.found p c.asked source = b.found p start.shop.world source :=
    found_eq_of_fingerprint hhash hasked (fingerprintVal_eq start.shop.world source ▸ hfingerprint)
  -- The object was there when the graph was made, and no other task touches it.
  have hthere : b.found p start.shop.world source ≠ .missing := fun hmissing =>
    htells.missing id source c hsource hstart (hfound.trans hmissing) hmissing
  have hexists : pathExists start.shop.world (b.objectPath p source) = true := by
    by_contra hnot
    apply hthere
    rw [found, Bool.eq_false_iff.mpr hnot, Bool.not_false, if_pos rfl]
  have hsame : ∀ path ∈ tools.compiler.reads (b.compileSpec p source) c.read,
      s.shop.world.lookup path = c.read.lookup path := by
    intro path hpath
    obtain ⟨hlookup, hother⟩ := htells.files id source c hsource hstart hfound path hpath
    rw [h.others path hother, hlookup]
  obtain ⟨-, houtput⟩ := tools.compiler.depends _ _ _ hsame
  rcases h.inv.object id source c hsource hcompiled with hnone | ⟨out, hout, hobject⟩
  · rw [h.objects id source hsource hid] at hnone
    rw [pathExists, hnone] at hexists
    exact absurd hexists Bool.false_ne_true
  · exact ⟨out, houtput.trans hout, hobject⟩

/-- The middle of a build. -/
theorem Site.Inv.building_foldl {s : Site} (h : s.Inv codec hash tools b p) (hstems : (p.sources.map sourceStem).Nodup)
    {g : BuildGraph Task} (hg : Linked hash b p s.shop.world g) {order : List (NodeId × CacheIo)}
    (hwrites : ∀ call ∈ order, call.2.putFault = none) {done : List (NodeId × CacheIo)} (hdone : done <+: order) :
    (done.foldl (Site.compile codec tools b p g s.shop.world) s).Building codec hash tools b p s
      (done.map Prod.fst) := by
  refine history_induction (fun done => (done.foldl (Site.compile codec tools b p g s.shop.world) s).Building codec hash
    tools b p s (done.map Prod.fst)) h.building (fun history call hinitial hbuilding => ?_) hdone
  rw [List.foldl_append, List.map_append]
  exact hbuilding.compile hstems hg (hwrites call (hinitial.subset (List.mem_append_right _ List.mem_cons_self)))

/-- In a build whose fingerprints tell, what is answered from the cache is current. -/
theorem Site.Inv.buildCurrent (hhash : HexHash hash) {s : Site} (h : s.Inv codec hash tools b p)
    (hstems : (p.sources.map sourceStem).Nodup) (htells : s.Tells tools b p) {order : List (NodeId × CacheIo)}
    (hnodup : (order.map Prod.fst).Nodup) (hwrites : ∀ call ∈ order, call.2.putFault = none) :
    s.BuildCurrent codec hash tools b p order := by
  intro g hok done id io hinitial node source hnode hsource hanswer
  have hg := createTasksFromConfig_linked hok
  have hbuilding := h.building_foldl hstems hg hwrites ((List.prefix_append done [(id, io)]).trans hinitial)
  obtain ⟨fingerprint, hfingerprint, htask⟩ := hg.compile_eq hnode hsource
  have hentry : node.payload.cache = some ⟨cacheKey hash p source, fingerprint⟩ := by rw [htask]; rfl
  have hid : id ∉ done.map Prod.fst := by
    have hpart := (hinitial.map Prod.fst).sublist.nodup hnodup
    rw [List.map_append, List.nodup_append] at hpart
    exact fun hmem => hpart.2.2 id hmem id (List.mem_singleton_self id) rfl
  cases hbuilding.inv.sound.performed (compileTool tools b p source) io hentry with
  | cached _ hrecorded _ _ => exact hbuilding.current hhash htells hid hsource hfingerprint hrecorded
  | failed hfailed _ _ _ => exact absurd (hfailed.symm.trans hanswer) (by decide)
  | executed _ hexecuted _ _ _ _ => exact absurd (hexecuted.symm.trans hanswer) (by decide)

/-- A source whose object is missing for the second time is answered from the cache, without an object. -/
theorem Site.Inv.cached_without_object {s : Site} (h : s.Inv codec hash tools b p) {g : BuildGraph Task}
    (hok : b.createTasksFromConfig hash p s.shop.world = .ok g) {id : NodeId} {node : Node Task} {source : String}
    (hnode : g.node id = some node) (hsource : p.sources[id]? = some source) {c : Compiled}
    (hcompiled : s.compiled id = some c) (hasked : b.found p c.asked source = .missing)
    (hmissing : pathExists s.shop.world (b.objectPath p source) = false) {io : CacheIo} (hio : io.readFault = none) :
    s.shop.answer codec (compileTool tools b p source) node.payload io = some .cached ∧
      ¬ Current tools b p s.shop.world source := by
  obtain ⟨fingerprint, hfingerprint, htask⟩ := (createTasksFromConfig_linked hok).compile_eq hnode hsource
  have hentry : node.payload.cache = some ⟨cacheKey hash p source, fingerprint⟩ := by rw [htask]; rfl
  have hrecorded : s.shop.recorded (cacheKey hash p source) = some fingerprint := by
    rw [h.recorded id source hsource, hcompiled, Option.bind_some, hasked, ← hfingerprint,
      fingerprintVal_of_missing hmissing]
    rfl
  constructor
  · have hhit := h.sound.askCache_recorded hentry hio hrecorded
    exact (Workshop.perform_of_hit _ (Prod.ext hhit rfl)).2
  · rintro ⟨out, -, hobject⟩
    rw [pathExists, hobject] at hmissing
    cases hmissing

/-! ## Runs -/

/-- What is known is kept as long as no object is written. -/
theorem Site.Inv.of_objects {s s' : Site} (h : s.Inv codec hash tools b p) (hsound : s'.shop.Sound codec)
    (hcompiled : s'.compiled = s.compiled) (hrecorded : ∀ key, s'.shop.recorded key = s.shop.recorded key)
    (hobjects : ∀ source ∈ p.sources, s'.shop.world.lookup (components (b.objectPath p source)) = none ∨
      s'.shop.world.lookup (components (b.objectPath p source)) =
        s.shop.world.lookup (components (b.objectPath p source))) : s'.Inv codec hash tools b p where
  sound := hsound
  recorded := by
    intro id source hsource
    rw [hrecorded, hcompiled]
    exact h.recorded id source hsource
  object := by
    intro id source c hsource hlast
    rw [hcompiled] at hlast
    rcases hobjects source (List.mem_of_getElem? hsource) with hnone | hkept
    · exact Or.inl hnone
    · rw [hkept]
      exact h.object id source c hsource hlast

/-- Linking keeps what is known when it writes no object. -/
theorem Site.Inv.link {s : Site} (h : s.Inv codec hash tools b p) {files : FileSystem} {g : BuildGraph Task}
    (hg : Linked hash b p files g) {link : Option CacheIo} (hwrites : ∀ io ∈ link, io.putFault = none)
    (hfinal : link.isSome → ∀ source ∈ p.sources, components (b.objectPath p source) ≠ components p.finalOutput) :
    (Site.link codec tools p g s link).Inv codec hash tools b p := by
  cases link with
  | none => exact h
  | some io =>
    rw [Site.link]
    cases hnode : g.node p.sources.length with
    | none => exact h
    | some node =>
      have hentry : node.payload.cache = none := by
        rw [hg.link_eq hnode]
        rfl
      obtain ⟨hworld, hkept⟩ := h.sound.performed_uncached (linkTool tools p) io hentry
      refine h.of_objects (h.sound.perform _ _ (hwrites io rfl)) rfl hkept fun source hsource => Or.inr ?_
      dsimp only
      rw [hworld, linkTool]
      cases tools.linker s.shop.world with
      | none => rfl
      | some bytes => exact AList.lookup_insert_ne (hfinal rfl source hsource)

/-- An allowed event keeps what is known. -/
theorem Site.Inv.step {s : Site} (h : s.Inv codec hash tools b p) (hstems : (p.sources.map sourceStem).Nodup)
    {event : Event} (hregular : Regular [event]) (hallows : s.Allows tools b p event) :
    (s.step codec hash tools b p event).Inv codec hash tools b p := by
  cases event with
  | edit path entry =>
    refine h.of_objects ⟨h.sound.inner, h.sound.backed, h.sound.stored⟩ rfl (fun _ => rfl) fun source hsource => Or.inr ?_
    cases entry with
    | some entry => exact AList.lookup_insert_ne (hallows source hsource)
    | none => exact AList.lookup_erase_ne (hallows source hsource)
  | clean =>
    exact h.of_objects ⟨h.sound.inner, h.sound.backed, h.sound.stored⟩ rfl (fun _ => rfl) fun source _ =>
      lookup_deleteDir _ _ _
  | restart process => exact h.of_objects (h.sound.reopen process) rfl (fun _ => rfl) fun _ _ => Or.inr rfl
  | build order link =>
    obtain ⟨-, hwrites, hlink⟩ := hregular order link List.mem_cons_self
    rw [Site.step, Site.build]
    cases hok : b.createTasksFromConfig hash p s.shop.world with
    | error e => exact h
    | ok g =>
      have hg := createTasksFromConfig_linked hok
      exact (h.building_foldl hstems hg hwrites List.prefix_rfl).inv.link hg hlink hallows.2

/-- The events of a run are allowed one after another. -/
theorem Site.allowsAll_cons {s : Site} {event : Event} {events : List Event} :
    s.AllowsAll codec hash tools b p (event :: events) ↔
      s.Allows tools b p event ∧ (s.step codec hash tools b p event).AllowsAll codec hash tools b p events := by
  constructor
  · intro h
    refine ⟨h [] event ⟨events, rfl⟩, fun history event' hnext => ?_⟩
    exact h (event :: history) event' (List.cons_prefix_cons.mpr ⟨rfl, hnext⟩)
  · rintro ⟨hfirst, hrest⟩ history event' hnext
    cases history with
    | nil =>
      obtain ⟨rfl, -⟩ := List.cons_prefix_cons.mp hnext
      exact hfirst
    | cons first history =>
      obtain ⟨rfl, hlater⟩ := List.cons_prefix_cons.mp hnext
      exact hrest history event' hlater

/-- In every run in which the fingerprints tell, what is answered from the cache is current. -/
theorem cachedCurrent_of_allowsAll (hhash : HexHash hash) (hstems : (p.sources.map sourceStem).Nodup)
    (files : FileSystem) (process : ℕ) {events : List Event} (hregular : Regular events)
    (hallows : (Site.new files process).AllowsAll codec hash tools b p events) :
    (Site.new files process).CachedCurrent codec hash tools b p events := by
  intro history order link hinitial
  have hearlier : history <+: events := (List.prefix_append history _).trans hinitial
  have hinv : ((Site.new files process).after codec hash tools b p history).Inv codec hash tools b p := by
    refine history_induction (fun history =>
      ((Site.new files process).after codec hash tools b p history).Inv codec hash tools b p)
      (Site.inv_new files process) (fun history event hnext hinv => ?_) hearlier
    rw [Site.after, List.foldl_append]
    refine hinv.step hstems (fun order link hmem => ?_) (hallows history event hnext)
    exact hregular order link (hnext.subset (List.mem_append_right _ hmem))
  obtain ⟨hnodup, hwrites, -⟩ := hregular order link (hinitial.subset (List.mem_append_right _ List.mem_cons_self))
  exact hinv.buildCurrent hhash hstems (hallows history _ hinitial).1 hnodup hwrites

end Runs

/-! ## A run -/

/-- The paths of the sample. -/
def mainPath : List Component := components "/p/main.c"

/-- The header of the sample. -/
def utilPath : List Component := components "/p/util.h"

/-- A compiler for one source and its header. The object is the text of both. -/
def sampleCompiler : IdealCompiler where
  reads spec _ := if spec.args[1]? = some "/p/main.c" then [mainPath, utilPath] else []
  output spec files :=
    if spec.args[1]? = some "/p/main.c" then
      match files.lookup mainPath, files.lookup utilPath with
      | some (.file main), some (.file util) => some ⟨main ++ util, utf8Bytes "main.o: /p/main.c /p/util.h\n"⟩
      | _, _ => none
    else none
  depends := by
    intro spec files files' hsame
    refine ⟨rfl, ?_⟩
    by_cases hsource : spec.args[1]? = some "/p/main.c"
    · simp only [if_pos hsource, List.mem_cons, List.not_mem_nil, or_false, forall_eq_or_imp, forall_eq] at hsame ⊢
      rw [hsame.1, hsame.2]
    · rw [if_neg hsource, if_neg hsource]
  listed := by
    intro spec files out hout
    by_cases hsource : spec.args[1]? = some "/p/main.c"
    · refine ⟨["/p/main.c", "/p/util.h"], ?_, ?_⟩
      · rw [if_pos hsource] at hout
        split at hout
        · obtain rfl := Option.some.inj hout
          rw [fromUtf8_utf8Bytes, Option.bind_some]
          decide
        · exact absurd hout nofun
      · rw [if_pos hsource]
        rfl
    · rw [if_neg hsource] at hout
      exact absurd hout nofun

/-- The values of BLAKE3 for the directory and the source of the sample, and for what is hashed for it. -/
def buildHashes : JsonCodec.Table Bytes where
  known :=
    [(utf8Bytes "/p", "c510457ba328a190c8ae83692b5e3935b2f92b81f2d65db79fe9377fb98e088a"),
      (utf8Bytes "/p/main.c", "c74e980437db36ce7993a8c22408be9a22b58e16244ba2d99ccd1a898110174f"),
      (utf8Bytes "gcc 13.2.0\nflags:\n-O2\nmainv2", "67f532df130fcc95869a1f7e6a8bcafa672bfcbe986119dbdc8bed48a5ffb0e2")]
  texts_nodup := by decide +kernel
  nonzero := by decide +kernel

/-- The hash has no collisions. -/
theorem buildHashes_hex : HexHash (hashOf buildHashes) :=
  hexHash_hashOf (by decide +kernel)

/-- The records of the source of the sample, as they are written to files. -/
def buildRecords : JsonCodec.Table FingerprintRecord where
  known :=
    ["rebuild_c74e980437db36ce7993a8c22408be9a22b58e16244ba2d99ccd1a898110174f",
      "67f532df130fcc95869a1f7e6a8bcafa672bfcbe986119dbdc8bed48a5ffb0e2"].map fun fingerprint =>
      (⟨fingerprint, 0, none, some "cc/c510457ba328/hello/main"⟩, recordText fingerprint "cc/c510457ba328/hello/main")
  texts_nodup := by decide +kernel
  nonzero := by
    intro entry hentry
    obtain ⟨fingerprint, -, rfl⟩ := List.mem_map.mp hentry
    exact recordText_head _ _

/-- A project with one source. -/
def buildProject : CcProject :=
  ⟨⟨"hello", .c, ["main.c"], [], ["-O2"], [], [], .executable⟩, "/p", "/p/build"⟩

/-- The files of the project, with a text of the header. -/
def sampleFiles (header : String) : FileSystem :=
  (AList.insert mainPath (.file (utf8Bytes "main")) ∅).insert utilPath (.file (utf8Bytes header))

/-- The tools of the sample. The linker makes nothing of note. -/
def sampleTools : Tools := ⟨sampleCompiler, fun _ => some []⟩

/-- A build of the project without faults. -/
def sampleBuild : Event := .build [(0, ⟨0, none, none⟩)] (some ⟨0, none, none⟩)

/-- The only source of the project. -/
theorem source_buildProject {id : NodeId} {source : String} (hsource : buildProject.sources[id]? = some source) :
    id = 0 ∧ source = "/p/main.c" := by
  have hsources : buildProject.sources = ["/p/main.c"] := by decide
  rw [hsources] at hsource
  cases id with
  | zero => exact ⟨rfl, (Option.some.inj hsource).symm⟩
  | succ id => exact absurd hsource nofun

/-- Whether what is found for the source of the sample tells its last compilation. -/
def sampleTells (s : Site) : Bool :=
  (s.compiled 0).all fun c =>
    let asked := CcBackend.sampleBackend.found buildProject c.asked "/p/main.c"
    let now := CcBackend.sampleBackend.found buildProject s.shop.world "/p/main.c"
    decide ((asked = .missing → now ≠ .missing) ∧ (asked = now → s.shop.world.lookup mainPath = c.read.lookup mainPath ∧
      s.shop.world.lookup utilPath = c.read.lookup utilPath))

/-- The files of the sample are no outputs. -/
theorem not_isOutput_sample {path : List Component} (hpath : path = mainPath ∨ path = utilPath) :
    ¬ IsOutput CcBackend.sampleBackend buildProject path := by
  rintro ⟨source, hsource, houtput⟩
  obtain ⟨id, hid⟩ := List.getElem?_of_mem hsource
  obtain ⟨-, rfl⟩ := source_buildProject hid
  rcases hpath with rfl | rfl <;> rcases houtput with hobject | ⟨depfile, hdepfile, hdep⟩
  · exact absurd hobject (by decide +kernel)
  · obtain rfl := Option.some.inj hdepfile
    exact absurd hdep (by decide +kernel)
  · exact absurd hobject (by decide +kernel)
  · obtain rfl := Option.some.inj hdepfile
    exact absurd hdep (by decide +kernel)

/-- The check tells. -/
theorem tells_of_sampleTells {s : Site} (h : sampleTells s = true) :
    s.Tells sampleTools CcBackend.sampleBackend buildProject where
  missing := by
    intro id source c hsource hcompiled
    obtain ⟨rfl, rfl⟩ := source_buildProject hsource
    rw [sampleTells, hcompiled, Option.all_some, decide_eq_true_iff] at h
    exact h.1
  files := by
    intro id source c hsource hcompiled hfound path hpath
    obtain ⟨rfl, rfl⟩ := source_buildProject hsource
    rw [sampleTells, hcompiled, Option.all_some, decide_eq_true_iff] at h
    obtain ⟨hmain, hutil⟩ := h.2 hfound
    have hreads : sampleTools.compiler.reads (CcBackend.sampleBackend.compileSpec buildProject "/p/main.c") c.read =
        [mainPath, utilPath] := rfl
    rw [hreads, List.mem_cons, List.mem_singleton] at hpath
    refine ⟨?_, not_isOutput_sample hpath⟩
    rcases hpath with rfl | rfl
    · exact hmain
    · exact hutil

/-- A build of the sample is allowed when its fingerprints tell. -/
theorem allows_sampleBuild {s : Site} (h : sampleTells s = true) :
    s.Allows sampleTools CcBackend.sampleBackend buildProject sampleBuild := by
  refine ⟨tells_of_sampleTells h, fun _ source hsource => ?_⟩
  obtain ⟨id, hid⟩ := List.getElem?_of_mem hsource
  obtain ⟨-, rfl⟩ := source_buildProject hid
  decide +kernel

/-- An edit of the header. -/
def sampleEdit : Event := .edit utilPath (some (.file (utf8Bytes "v2")))

/-- An edit of the header is allowed. -/
theorem allows_sampleEdit (s : Site) : s.Allows sampleTools CcBackend.sampleBackend buildProject sampleEdit := by
  intro source hsource hsame
  exact not_isOutput_sample (Or.inr rfl) ⟨source, hsource, Or.inl hsame.symm⟩

/-- The builds of the sample are regular. -/
theorem regular_sample (events : List Event)
    (hbuilds : ∀ event ∈ events, event = sampleBuild ∨ event = sampleEdit ∨ event = .clean) : Regular events := by
  intro order link hmem
  rcases hbuilds _ hmem with hbuild | hedit | hclean
  · obtain ⟨rfl, rfl⟩ := Event.build.inj hbuild
    exact ⟨by decide, fun call hcall => by rw [List.mem_singleton.mp hcall], fun io hio => by
      obtain rfl := Option.some.inj hio
      rfl⟩
  · exact absurd hedit nofun
  · exact absurd hclean nofun

/-- After the header was edited, the source is compiled once more and then answered from the cache, and its object is
current. -/
theorem cachedCurrent_sample :
    (Site.new (sampleFiles "v1") 1).CachedCurrent (.ofTable buildRecords) (hashOf buildHashes) sampleTools
      CcBackend.sampleBackend buildProject [sampleBuild, sampleEdit, sampleBuild, sampleBuild] := by
  refine cachedCurrent_of_allowsAll buildHashes_hex (by decide +kernel) _ 1
    (regular_sample _ (by simp)) ?_
  rw [Site.allowsAll_cons, Site.allowsAll_cons, Site.allowsAll_cons, Site.allowsAll_cons]
  refine ⟨allows_sampleBuild rfl, allows_sampleEdit _, allows_sampleBuild ?_, allows_sampleBuild ?_, ?_⟩
  · decide +kernel
  · decide +kernel
  · exact fun history event hnext => absurd (List.prefix_nil.mp hnext) (by simp)

/-- The site after a build and the deletion of what it made. -/
def cleanedSite : Site :=
  (Site.new (sampleFiles "v1") 1).after (.ofTable buildRecords) (hashOf buildHashes) sampleTools
    CcBackend.sampleBackend buildProject [sampleBuild, .clean]

/-- The last compilation started without an object. -/
theorem exists_compiled_cleanedSite : ∃ c, cleanedSite.compiled 0 = some c ∧
    CcBackend.sampleBackend.found buildProject c.asked "/p/main.c" = .missing := by
  have hmissing : (cleanedSite.compiled 0).any (fun c =>
      decide (CcBackend.sampleBackend.found buildProject c.asked "/p/main.c" = .missing)) = true := by
    decide +kernel
  cases hcompiled : cleanedSite.compiled 0 with
  | none =>
    rw [hcompiled] at hmissing
    exact absurd hmissing Bool.false_ne_true
  | some c =>
    rw [hcompiled] at hmissing
    exact ⟨c, rfl, of_decide_eq_true hmissing⟩

/-- What is known about the site. -/
theorem inv_cleanedSite : cleanedSite.Inv (.ofTable buildRecords) (hashOf buildHashes) sampleTools
    CcBackend.sampleBackend buildProject := by
  have hstems : (buildProject.sources.map sourceStem).Nodup := by decide +kernel
  have hfresh : (Site.new (sampleFiles "v1") 1).Inv (.ofTable buildRecords) (hashOf buildHashes) sampleTools
      CcBackend.sampleBackend buildProject := Site.inv_new _ 1
  have hbuilt := hfresh.step hstems (regular_sample [sampleBuild] (by simp)) (allows_sampleBuild rfl)
  have hcleaned := hbuilt.step hstems (regular_sample [.clean] (by simp)) trivial
  rw [cleanedSite, Site.after, List.foldl_cons, List.foldl_cons, List.foldl_nil]
  exact hcleaned

/-- The object is deleted, and the source is answered from the cache all the same. -/
theorem not_cachedCurrent_clean :
    Regular [sampleBuild, .clean, sampleBuild] ∧ (buildProject.sources.map sourceStem).Nodup ∧
      ¬ (Site.new (sampleFiles "v1") 1).CachedCurrent (.ofTable buildRecords) (hashOf buildHashes) sampleTools
        CcBackend.sampleBackend buildProject [sampleBuild, .clean, sampleBuild] := by
  refine ⟨regular_sample _ (by simp), by decide +kernel, fun hcurrent => ?_⟩
  have hgone : pathExists cleanedSite.shop.world
      (CcBackend.sampleBackend.objectPath buildProject "/p/main.c") = false := by
    decide +kernel
  obtain ⟨g, hok⟩ : ∃ g, CcBackend.sampleBackend.createTasksFromConfig (hashOf buildHashes) buildProject
      cleanedSite.shop.world = .ok g := by
    refine CcBackend.exists_createTasksFromConfig fun source hsource => ?_
    obtain ⟨id, hid⟩ := List.getElem?_of_mem hsource
    obtain ⟨-, rfl⟩ := source_buildProject hid
    rw [CcBackend.fingerprintVal_of_missing hgone]
    rfl
  obtain ⟨node, hnode⟩ : ∃ node, g.node 0 = some node := by
    obtain ⟨compileTasks, -, hpayloads⟩ := (CcBackend.createTasksFromConfig_linked hok).tasks
    have hlength := congrArg List.length hpayloads
    rw [List.length_map, List.length_append, List.length_singleton] at hlength
    exact ⟨_, List.getElem?_eq_getElem (by omega)⟩
  obtain ⟨c, hcompiled, hasked⟩ := exists_compiled_cleanedSite
  have hsource : buildProject.sources[0]? = some "/p/main.c" := by decide
  have hio : (⟨0, none, none⟩ : CacheIo).readFault = none := rfl
  obtain ⟨hcached, hstale⟩ := inv_cleanedSite.cached_without_object hok hnode hsource hcompiled hasked hgone hio
  have hbuild : cleanedSite.BuildCurrent (.ofTable buildRecords) (hashOf buildHashes) sampleTools
      CcBackend.sampleBackend buildProject [(0, ⟨0, none, none⟩)] := hcurrent [sampleBuild, .clean] _ _ List.prefix_rfl
  have hcall := hbuild g hok [] 0 ⟨0, none, none⟩ List.prefix_rfl node _ hnode hsource
  rw [List.foldl_nil] at hcall
  exact hstale (hcall hcached)

end Forge.Backend.Cc
