import Forge.Executor.Task
import Forge.Fingerprint.Combine
import Forge.Graph.Built
import Forge.Project.Owners

/-!
# What the identity of a task tells about its command

A task is taken from the cache when there is an entry with its key and its fingerprint.
Tasks with the same identity should therefore run the same command. For the backends that
make one task for each of a few modes of a project this comes down to what the fingerprint
of the project leaves out.
-/

namespace Forge.Backend

open Forge.Common Forge.Graph Forge.Graph.BuildGraph Forge.Project Forge.Fingerprint Forge.Executor

/-- A map from strings to strings, by its entries in the order of their keys. -/
structure StringMap where
  entries : List (String × String)
  sorted : (entries.map (·.1)).Pairwise (· < ·)
deriving DecidableEq

/-- An empty map is in order. -/
theorem StringMap.sorted_nil : (([] : List (String × String)).map (·.1)).Pairwise (· < ·) := .nil

/-- The files of a project, and whether something that is walked over cannot be read. -/
structure ProjectFiles where
  tree : Tree
  unreadable : Bool

/-- The content of a file, nothing if it is not there. -/
def fileBytes (fs : Tree) (path : Path) : Bytes :=
  (isFile fs path).getD []

/-- What is relied on about the hash: it has no collisions, and its values are hexadecimal, so that there
are no colons and no underscores in them. -/
structure HexHash (hash : Bytes → String) : Prop where
  injective : Function.Injective hash
  plain : ∀ text, ':' ∉ (hash text).toList ∧ '_' ∉ (hash text).toList

/-- A digit of a hexadecimal number. -/
def isHexDigit (c : Char) : Bool := c.isDigit || ('a' ≤ c && c ≤ 'f')

/-- Hexadecimal text has no other characters. -/
theorem notMem_of_all_isHexDigit {c : Char} {s : List Char} (hc : isHexDigit c = false)
    (hdigits : s.all isHexDigit = true) : c ∉ s := by
  intro hmem
  have hdigit := List.all_eq_true.mp hdigits c hmem
  exact absurd (hc.symm.trans hdigit) nofun

/-- The hash of a table of hexadecimal values. -/
theorem hexHash_hashOf {table : JsonCodec.Table Bytes}
    (hdigits : ∀ entry ∈ table.known, entry.2.toList.all isHexDigit = true) : HexHash (hashOf table) where
  injective := hashOf_injective table
  plain := by
    intro text
    have hplain : ∀ c, isHexDigit c = false → c ≠ '\x00' → c ∉ (hashOf table text).toList := fun c hc hzero =>
      notMem_hashOf hzero (fun entry hentry => notMem_of_all_isHexDigit hc (hdigits entry hentry)) text
    exact ⟨hplain ':' (by decide) (by decide), hplain '_' (by decide) (by decide)⟩

/-- Two commands have the same program, arguments, environment and directory. -/
structure SameCommand (spec spec' : CommandSpec) : Prop where
  program : spec.program = spec'.program
  args : spec.args = spec'.args
  env : spec.env = spec'.env
  cwd : spec.cwd = spec'.cwd

/-- A graph has a task with an identity and a command. -/
def Carries (g : BuildGraph Task) (entry : CacheEntry) (spec : CommandSpec) : Prop :=
  ∃ task ∈ g.nodes.map (·.payload), task.cache = some entry ∧ task.spec = spec

/-- Tasks of two graphs with the same identity run the same command. -/
def Identifies (g g' : BuildGraph Task) : Prop :=
  ∀ entry spec spec', Carries g entry spec → Carries g' entry spec' → SameCommand spec spec'

/-- Tasks with the same identity run the same command, in each of two graphs and between them. -/
structure Identified (g g' : BuildGraph Task) : Prop where
  left : Identifies g g
  between : Identifies g g'
  right : Identifies g' g'

/-- What it takes for identities to tell commands in two graphs and between them. -/
theorem identified_iff_and {g g' : BuildGraph Task} :
    Identified g g' ↔ Identifies g g ∧ Identifies g g' ∧ Identifies g' g' :=
  ⟨fun h => ⟨h.left, h.between, h.right⟩, fun ⟨hleft, hbetween, hright⟩ => ⟨hleft, hbetween, hright⟩⟩

/-- The fingerprint of an unreadable project is no hash. -/
theorem HexHash.ne_no_fp {hash : Bytes → String} (h : HexHash hash) (text : Bytes) : hash text ≠ "no_fp" := by
  intro hsame
  have hplain := (h.plain text).2
  rw [hsame] at hplain
  exact hplain (by decide)

/-! ## Keys -/

/-- Modes and names are read back from keys. -/
theorem formatCacheKey_inj {backend space mode mode' name name' : String} (hmode : '/' ∉ mode.toList)
    (hmode' : '/' ∉ mode'.toList) :
    formatCacheKey backend space mode name = formatCacheKey backend space mode' name' ↔ mode = mode' ∧ name = name' := by
  constructor
  · intro hkey
    have hchars := congrArg String.toList hkey
    simp only [formatCacheKey, String.toList_append, List.append_assoc, List.append_cancel_left_eq] at hchars
    have hsplit := congrArg (splitOnce '/') hchars
    have hslash : "/".toList = ['/'] := rfl
    rw [hslash, List.singleton_append, List.singleton_append, splitOnce_append hmode, splitOnce_append hmode'] at hsplit
    obtain ⟨hmodes, hnames⟩ := Prod.mk.inj (Option.some.inj hsplit)
    exact ⟨String.toList_injective hmodes, String.toList_injective hnames⟩
  · rintro ⟨rfl, rfl⟩
    rfl

/-! ## Projects with a task for each mode -/

/-- Add a task that waits for another one. -/
def addAfter (graph : BuildGraph Task) (dependency : NodeId) (task : Task) :
    Except GraphError (NodeId × BuildGraph Task) :=
  let (node, graph) := graph.addNode task
  match graph.addDependency dependency node with
  | (.error e, _) => .error e
  | (.ok (), graph) => .ok (node, graph)

/-- A task is added behind the others. -/
theorem addAfter_payloads {graph graph' : BuildGraph Task} {dependency node : NodeId} {task : Task}
    (hok : addAfter graph dependency task = .ok (node, graph')) :
    graph'.nodes.map (·.payload) = graph.nodes.map (·.payload) ++ [task] := by
  unfold addAfter at hok
  have hnodes := nodes_addDependency (graph.addNode task).2 dependency (graph.addNode task).1
  dsimp only at hok
  split at hok
  · exact absurd hok nofun
  · rename_i hadded
    obtain ⟨-, rfl⟩ := Prod.mk.inj (Except.ok.inj hok)
    rw [hadded] at hnodes
    rw [hnodes]
    simp [addNode]

/-- A task is added with its dependency. -/
theorem addAfter_spec {graph graph' : BuildGraph Task} {dependency node : NodeId} {task : Task} (hwf : graph.WellFormed)
    (hok : addAfter graph dependency task = .ok (node, graph')) :
    graph'.WellFormed ∧ node = graph.len ∧ graph'.len = graph.len + 1 ∧
      ∀ id, graph'.depList id = if id = graph.len then [dependency] else graph.depList id := by
  have hadded := hwf.addNode task
  have hnode : (graph.addNode task).1 = graph.len := rfl
  have hwf' := hadded.addDependency dependency graph.len
  unfold addAfter at hok
  dsimp only at hok
  rw [hnode] at hok
  rcases (graph.addNode task).2.addDependency_cases dependency graph.len with ⟨e, heq, -⟩ | ⟨-, hlt, -, -, heq⟩
  · rw [heq] at hok
    exact absurd hok nofun
  · rw [heq] at hok hwf'
    obtain ⟨rfl, rfl⟩ := Prod.mk.inj (Except.ok.inj hok)
    refine ⟨hwf', rfl, len_addNode graph task, fun id => ?_⟩
    rw [depList_pushEdge _ (by rw [hadded.depsLength]; exact hlt), depList_addNode]
    by_cases hid : id = graph.len
    · have hnone : graph.depList id = [] := by
        rw [depList, List.getElem?_eq_none (by rw [hwf.depsLength, hid]; exact le_rfl)]
        rfl
      rw [if_pos hid, if_pos hid, hnone, List.nil_append]
    · rw [if_neg hid, if_neg hid]

/-- A task can wait for any task that was added before. -/
theorem exists_addAfter {graph : BuildGraph Task} (hwf : graph.WellFormed) {dependency : NodeId}
    (hdependency : dependency < graph.len) (task : Task) :
    ∃ graph', addAfter graph dependency task = .ok (graph.len, graph') := by
  have hlen := len_addNode graph task
  have hnone : graph.dependentList graph.len = [] := by
    rw [dependentList, List.getElem?_eq_none (by rw [hwf.dependentsLength]; exact le_rfl)]
    rfl
  have hsink : (graph.addNode task).2.dependentList graph.len = [] := by rw [dependentList_addNode, hnone]
  have hnode : graph.len < (graph.addNode task).2.len := by rw [hlen]; exact Nat.lt_succ_self _
  have hlt : dependency < (graph.addNode task).2.len := by rw [hlen]; exact Nat.lt_succ_of_lt hdependency
  have hok := (hwf.addNode task).addDependency_sink hnode hsink hlt (Nat.ne_of_lt hdependency)
  unfold addAfter
  dsimp only
  rw [show (graph.addNode task).1 = graph.len from rfl, hok]
  exact ⟨_, rfl⟩

/-- A task that is only added under a condition. -/
theorem addAfter_if_payloads {graph graph' : BuildGraph Task} {dependency : NodeId} {task : Task} {wanted : Bool}
    (hok : (if wanted then (addAfter graph dependency task).map (·.2) else .ok graph) = .ok graph') :
    graph'.nodes.map (·.payload) = graph.nodes.map (·.payload) ++ if wanted then [task] else [] := by
  cases wanted with
  | false =>
    obtain rfl := Except.ok.inj hok
    exact (List.append_nil _).symm
  | true =>
    cases hadded : addAfter graph dependency task with
    | error e =>
      rw [if_pos rfl, hadded] at hok
      exact absurd hok nofun
    | ok added =>
      rw [if_pos rfl, hadded] at hok
      obtain rfl := Except.ok.inj hok
      exact addAfter_payloads hadded

/-- The cached tasks of a project: one for each mode, all under the name and with the fingerprint of the
project. -/
structure Staged (backend space name fingerprint : String) (stages : List (String × CommandSpec))
    (g : BuildGraph Task) : Prop where
  carries : ∀ entry spec, Carries g entry spec ↔
    ∃ mode, (mode, spec) ∈ stages ∧ entry = ⟨formatCacheKey backend space mode name, fingerprint⟩
  modes : ∀ stage ∈ stages, '/' ∉ stage.1.toList
  nodup : (stages.map (·.1)).Nodup

/-- The tasks of a graph are staged when they are one for each mode, next to tasks that are not cached. -/
theorem Staged.of_payloads {backend space name fingerprint : String} {stages : List (String × CommandSpec)}
    {g : BuildGraph Task} {others : List Task} {cachedTask : String → CommandSpec → Task}
    (hpayloads : g.nodes.map (·.payload) = others ++ stages.map fun stage => cachedTask stage.1 stage.2)
    (hothers : ∀ task ∈ others, task.cache = none)
    (hcache : ∀ mode spec, (cachedTask mode spec).cache = some ⟨formatCacheKey backend space mode name, fingerprint⟩)
    (hspec : ∀ mode spec, (cachedTask mode spec).spec = spec) (hmodes : ∀ stage ∈ stages, '/' ∉ stage.1.toList)
    (hnodup : (stages.map (·.1)).Nodup) : Staged backend space name fingerprint stages g where
  carries := by
    intro entry spec
    unfold Carries
    rw [hpayloads]
    constructor
    · rintro ⟨task, htask, hentry, rfl⟩
      rcases List.mem_append.mp htask with htask | htask
      · exact absurd ((hothers task htask).symm.trans hentry) nofun
      · obtain ⟨⟨mode, spec⟩, hstage, rfl⟩ := List.mem_map.mp htask
        refine ⟨mode, ?_, Option.some.inj (hentry.symm.trans (hcache mode spec))⟩
        rw [hspec]
        exact hstage
    · rintro ⟨mode, hstage, rfl⟩
      have htask : cachedTask mode spec ∈ stages.map fun stage => cachedTask stage.1 stage.2 :=
        List.mem_map.mpr ⟨_, hstage, rfl⟩
      exact ⟨_, List.mem_append_right others htask, hcache mode spec, hspec mode spec⟩
  modes := hmodes
  nodup := hnodup

section Staged

variable {backend space name name' fingerprint fingerprint' : String} {stages stages' : List (String × CommandSpec)}
  {g g' : BuildGraph Task}

/-- Tasks of two projects with the same identity run the same command exactly when projects with the same
name and fingerprint have the same commands for the modes that both have. -/
theorem Staged.identifies_iff (h : Staged backend space name fingerprint stages g)
    (h' : Staged backend space name' fingerprint' stages' g') :
    Identifies g g' ↔ (name = name' → fingerprint = fingerprint' →
      ∀ mode spec spec', (mode, spec) ∈ stages → (mode, spec') ∈ stages' → SameCommand spec spec') := by
  constructor
  · rintro hidentifies rfl rfl mode spec spec' hspec hspec'
    exact hidentifies ⟨_, _⟩ spec spec' ((h.carries _ _).mpr ⟨mode, hspec, rfl⟩)
      ((h'.carries _ _).mpr ⟨mode, hspec', rfl⟩)
  · intro hsame entry spec spec' hentry hentry'
    obtain ⟨mode, hspec, rfl⟩ := (h.carries _ _).mp hentry
    obtain ⟨mode', hspec', hidentity⟩ := (h'.carries _ _).mp hentry'
    obtain ⟨hkey, hfingerprint⟩ := CacheEntry.mk.inj hidentity
    obtain ⟨rfl, hname⟩ := (formatCacheKey_inj (h.modes _ hspec) (h'.modes _ hspec')).mp hkey
    exact hsame hname hfingerprint mode spec spec' hspec hspec'

/-- The tasks of one project have different identities. -/
theorem Staged.identifies_self (h : Staged backend space name fingerprint stages g) : Identifies g g := by
  rw [h.identifies_iff h]
  intro _ _ mode spec spec' hspec hspec'
  have hsame : (mode, spec) = (mode, spec') := List.inj_on_of_nodup_map h.nodup hspec hspec' rfl
  obtain rfl := (Prod.mk.inj hsame).2
  exact ⟨rfl, rfl, rfl, rfl⟩

/-- What the identities of two projects tell. -/
theorem Staged.identified_iff (h : Staged backend space name fingerprint stages g)
    (h' : Staged backend space name' fingerprint' stages' g') :
    Identified g g' ↔ (name = name' → fingerprint = fingerprint' →
      ∀ mode spec spec', (mode, spec) ∈ stages → (mode, spec') ∈ stages' → SameCommand spec spec') := by
  rw [← h.identifies_iff h']
  exact ⟨fun hidentified => hidentified.between, fun hbetween => ⟨h.identifies_self, hbetween, h'.identifies_self⟩⟩

end Staged

/-- The fingerprint of a project, with a text that stands for one that could not be made. -/
def orNoFp (fingerprint : Option String) : String :=
  fingerprint.getD "no_fp"

/-- Two projects have the same fingerprint when the same is hashed for them, or when neither can be
read. -/
def SameHashed (files files' : ProjectFiles) (text text' : Bytes) : Prop :=
  files.unreadable = files'.unreadable ∧ (files.unreadable = false → text = text')

/-- The fingerprint of what is hashed for a project, none if it cannot be read. -/
def hashReadable (hash : Bytes → String) (files : ProjectFiles) (text : Bytes) : Option String :=
  if files.unreadable then none else some (hash text)

/-- The fingerprints of projects tell what is hashed for them. -/
theorem orNoFp_eq_iff {hash : Bytes → String} (h : HexHash hash) {files files' : ProjectFiles} {text text' : Bytes} :
    orNoFp (hashReadable hash files text) = orNoFp (hashReadable hash files' text') ↔
      SameHashed files files' text text' := by
  unfold orNoFp hashReadable SameHashed
  cases files.unreadable <;> cases files'.unreadable
  · simp [h.injective.eq_iff]
  · simp [h.ne_no_fp]
  · simp [(h.ne_no_fp text').symm]
  · simp

end Forge.Backend
