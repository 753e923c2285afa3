import Forge.Backend.Java
import Forge.Cache.ToolRuns
import Forge.Common.Histories

/-!
# Incremental builds of Java projects

The tools are ideal: cleaning removes all outputs, and every other goal makes its outputs a
function of the current sources. Every build cleans first, since the cleaning is not cached,
but the goals are answered from the cache when the same was hashed for the build before. The
outputs are then gone.
-/

namespace Forge.Backend.Java

open Forge.Common Forge.Graph Forge.Graph.BuildGraph Forge.Project Forge.Fingerprint Forge.Executor Forge.Cache

/-- The files of a project, and the outputs of the goals by their arguments. -/
structure JavaWorld where
  files : ProjectFiles
  outputs : List String → Option Bytes

/-- What the goals make of the sources, by their arguments. -/
abbrev JavaTools := List String → ProjectFiles → Bytes

/-- Run a goal. -/
def runGoal (tools : JavaTools) (args : List String) (w : JavaWorld) : JavaWorld :=
  if args = ["clean"] then { w with outputs := fun _ => none }
  else { w with outputs := Function.update w.outputs args (some (tools args w.files)) }

/-- A step in the life of a project: the files are edited, the cache is opened in another process, or the
project is built, in some order of its tasks. -/
inductive Event where
  | edit (files : ProjectFiles)
  | restart (process : ℕ)
  | build (order : List NodeId) (io : NodeId → CacheIo)

/-- A project with its files and its cache, and the files of the last build. -/
structure Site where
  shop : Workshop JavaWorld
  built : Option ProjectFiles

/-- A site without outputs and with an empty cache. -/
def Site.new (files : ProjectFiles) (process : ℕ) : Site :=
  ⟨.new ⟨files, fun _ => none⟩ process, none⟩

section Runs

variable (codec : RecordCodec) (hash : Bytes → String) (tools : JavaTools) (b : JavaBackend) (config : JavaProjectConfig)

/-- Run a task of a graph. -/
def performNode (g : BuildGraph Task) (io : NodeId → CacheIo) (shop : Workshop JavaWorld) (id : NodeId) :
    Workshop JavaWorld :=
  match g.node id with
  | some node => shop.perform codec (fun w => some (runGoal tools node.payload.spec.args w)) node.payload (io id)
  | none => shop

/-- Run the tasks of a graph. -/
def performAll (g : BuildGraph Task) (io : NodeId → CacheIo) (order : List NodeId) (shop : Workshop JavaWorld) :
    Workshop JavaWorld :=
  order.foldl (performNode codec tools g io) shop

/-- Build the project, if there are tasks. -/
def Site.build (s : Site) (order : List NodeId) (io : NodeId → CacheIo) : Site :=
  match b.createTasksFromConfig hash config s.shop.world.files with
  | .error _ => s
  | .ok g => ⟨performAll codec tools g io order s.shop, some s.shop.world.files⟩

/-- What an event does. -/
def Site.step (s : Site) : Event → Site
  | .edit files => { s with shop := { s.shop with world := { s.shop.world with files := files } } }
  | .restart process => { s with shop := s.shop.reopen process }
  | .build order io => s.build codec hash tools b config order io

/-- The site after events. -/
def Site.after (s : Site) (events : List Event) : Site :=
  events.foldl (Site.step codec hash tools b config) s

/-- A build leaves the outputs of a build without outputs and with an empty cache. -/
def Site.BuildsClean (s : Site) (order : List NodeId) (io : NodeId → CacheIo) : Prop :=
  ∀ g, b.createTasksFromConfig hash config s.shop.world.files = .ok g →
    (performAll codec tools g io order s.shop).world.outputs =
      (performAll codec tools g io order (.new ⟨s.shop.world.files, fun _ => none⟩ 0)).world.outputs

/-- All builds of a run leave the outputs of a clean build. -/
def Site.AlwaysClean (s : Site) (events : List Event) : Prop :=
  ∀ history order io, history ++ [.build order io] <+: events →
    (s.after codec hash tools b config history).BuildsClean codec hash tools b config order io

/-- Something else is hashed for a project than for its last build. -/
def Site.Changed (s : Site) : Prop :=
  ∀ old, s.built = some old → ¬ SameHashed old s.shop.world.files (b.hashedText config old)
    (b.hashedText config s.shop.world.files)

/-- Before every build of a run something else is hashed than for the last one. -/
def Site.AlwaysChanged (s : Site) (events : List Event) : Prop :=
  ∀ history order io, history ++ [.build order io] <+: events →
    (s.after codec hash tools b config history).Changed b config

/-- Builds run the tasks in a dependency order, and the stores of the cache succeed. -/
def Regular (events : List Event) : Prop :=
  ∀ order io, .build order io ∈ events → (∀ id, (io id).putFault = none) ∧
    ∀ files g, b.createTasksFromConfig hash config files = .ok g → g.IsTopological order

/-- The cache can always be read. -/
def Readable (events : List Event) : Prop :=
  ∀ order io, .build order io ∈ events → ∀ id, (io id).readFault = none

end Runs

/-! ## The goals of a graph -/

section Goals

open JavaBackend

variable {hash : Bytes → String} {b : JavaBackend} {config : JavaProjectConfig} {executable fp : String}

/-- The modes and arguments of the goals of a build system. -/
def goals : JavaBuildSystem → Bool → List (String × List String)
  | .maven, true => [("compile", ["compile", "-DskipTests"]), ("package", ["package", "-DskipTests"])]
  | .maven, false => [("compile", ["compile"]), ("package", ["package"]), ("test", ["test"])]
  | .gradle, true => [("build", ["build", "-x", "test"])]
  | .gradle, false => [("build", ["build"]), ("test", ["test"])]

/-- The goals of a project are those of its build system. -/
theorem stages_goals : (b.stages config executable).map (fun stage => (stage.1, stage.2.args)) =
    goals config.buildSystem config.skipTests := by
  unfold stages
  cases config.buildSystem <;> cases config.skipTests <;> rfl

/-- The goals have different modes. -/
theorem goals_modes_nodup (system : JavaBuildSystem) (skipTests : Bool) :
    ((goals system skipTests).map Prod.fst).Nodup := by
  cases system <;> cases skipTests <;> decide

/-- The goals have different arguments. -/
theorem goals_args_nodup (system : JavaBuildSystem) (skipTests : Bool) :
    ((goals system skipTests).map Prod.snd).Nodup := by
  cases system <;> cases skipTests <;> decide

/-- No mode has a slash, and no goal removes the outputs. -/
theorem goals_plain (system : JavaBuildSystem) (skipTests : Bool) :
    ∀ goal ∈ goals system skipTests, '/' ∉ goal.1.toList ∧ goal.2 ≠ ["clean"] := by
  cases system <;> cases skipTests <;> decide

/-- No mode of a goal has a slash, and no goal removes the outputs. -/
theorem stage_plain {stage : String × CommandSpec} (hstage : stage ∈ b.stages config executable) :
    '/' ∉ stage.1.toList ∧ stage.2.args ≠ ["clean"] := by
  have hmem := @List.mem_map_of_mem _ _ _ _ (fun stage : String × CommandSpec => (stage.1, stage.2.args)) hstage
  rw [stages_goals] at hmem
  exact goals_plain _ _ _ hmem

/-- The goal in a place. -/
theorem goal_of_stage {n : ℕ} {stage : String × CommandSpec}
    (hstage : (b.stages config executable)[n]? = some stage) :
    (goals config.buildSystem config.skipTests)[n]? = some (stage.1, stage.2.args) := by
  rw [← @stages_goals b config executable, List.getElem?_map, hstage, Option.map_some]

/-- There is a goal. -/
theorem stages_pos : 0 < (b.stages config executable).length := by
  unfold stages
  cases config.buildSystem <;> exact Nat.succ_pos _

/-- The key of a goal in the cache. -/
def stageKey (hash : Bytes → String) (b : JavaBackend) (config : JavaProjectConfig) (stage : String × CommandSpec) : String :=
  b.goalKey hash config config.buildSystem.cacheBackend stage.1

/-- Goals with the same key are in the same place. -/
theorem stage_of_key {n n' : ℕ} {stage stage' : String × CommandSpec}
    (hstage : (b.stages config executable)[n]? = some stage) (hstage' : (b.stages config executable)[n']? = some stage')
    (hkey : stageKey hash b config stage = stageKey hash b config stage') : n = n' := by
  obtain ⟨hmode, -⟩ := (formatCacheKey_inj (stage_plain (List.mem_of_getElem? hstage)).1
    (stage_plain (List.mem_of_getElem? hstage')).1).mp hkey
  have hgoal := goal_of_stage hstage
  have hlt : n < ((goals config.buildSystem config.skipTests).map Prod.fst).length := by
    rw [List.length_map]
    exact (List.getElem?_eq_some_iff.mp hgoal).1
  apply (List.getElem?_inj hlt (goals_modes_nodup _ _)).mp
  rw [List.getElem?_map, List.getElem?_map, hgoal, goal_of_stage hstage', Option.map_some, Option.map_some, hmode]

/-- Goals with the same arguments are in the same place. -/
theorem stage_of_args {n n' : ℕ} {stage stage' : String × CommandSpec}
    (hstage : (b.stages config executable)[n]? = some stage) (hstage' : (b.stages config executable)[n']? = some stage')
    (hargs : stage.2.args = stage'.2.args) : n = n' := by
  have hgoal := goal_of_stage hstage
  have hlt : n < ((goals config.buildSystem config.skipTests).map Prod.snd).length := by
    rw [List.length_map]
    exact (List.getElem?_eq_some_iff.mp hgoal).1
  apply (List.getElem?_inj hlt (goals_args_nodup _ _)).mp
  rw [List.getElem?_map, List.getElem?_map, hgoal, goal_of_stage hstage', Option.map_some, Option.map_some, hargs]

/-- The first node of a graph removes the outputs. -/
theorem node_zero {g : BuildGraph Task} (hg : Waiting g (tasksOf hash b config executable fp)) :
    ∃ node, g.node 0 = some node ∧ node.payload = b.cleanTask config config.buildSystem.tool executable := by
  have hhead := congrArg (·[0]?) hg.payloads
  simp only [List.getElem?_map, tasksOf, List.getElem?_cons_zero] at hhead
  exact Option.map_eq_some_iff.mp hhead

/-- The other nodes of a graph are the goals. -/
theorem node_succ {g : BuildGraph Task} (hg : Waiting g (tasksOf hash b config executable fp)) {n : ℕ}
    (hlt : n + 1 < g.len) :
    ∃ node stage, g.node (n + 1) = some node ∧ (b.stages config executable)[n]? = some stage ∧ node.payload =
      b.goalTask hash config config.buildSystem.cacheBackend config.buildSystem.tool stage.1 stage.2 fp := by
  have hnode : g.node (n + 1) = some g.nodes[n + 1] := List.getElem?_eq_getElem hlt
  have htail := congrArg (·[n + 1]?) hg.payloads
  simp only [List.getElem?_map, tasksOf, List.getElem?_cons_succ] at htail
  rw [show g.nodes[n + 1]? = some g.nodes[n + 1] from hnode, Option.map_some] at htail
  obtain ⟨stage, hstage, hpayload⟩ := Option.map_eq_some_iff.mp htail.symm
  exact ⟨_, stage, hnode, hstage, hpayload.symm⟩

/-- The number of nodes of a graph. -/
theorem len_eq {g : BuildGraph Task} (hg : Waiting g (tasksOf hash b config executable fp)) :
    g.len = (b.stages config executable).length + 1 := by
  have hlength := congrArg List.length hg.payloads
  rw [List.length_map, tasksOf, List.length_cons, List.length_map] at hlength
  exact hlength

end Goals

/-! ## One build -/

section Build

open JavaBackend

variable {codec : RecordCodec} {hash : Bytes → String} {tools : JavaTools} {b : JavaBackend} {config : JavaProjectConfig}
  {executable fp : String}

/-- In the middle of a build that started without outputs, the goals that were done have the fingerprint. They all made
their outputs if none of them had it before, and none of them did if all of them had it and the cache could be read. -/
structure Building (codec : RecordCodec) (hash : Bytes → String) (tools : JavaTools) (b : JavaBackend)
    (config : JavaProjectConfig) (executable fp : String) (readable : Prop) (start w : Workshop JavaWorld)
    (done : List NodeId) : Prop where
  sound : w.Sound codec
  files : w.world.files = start.world.files
  recorded : ∀ n stage, (b.stages config executable)[n]? = some stage → w.recorded (stageKey hash b config stage) =
    if n + 1 ∈ done then some fp else start.recorded (stageKey hash b config stage)
  made : (∀ stage ∈ b.stages config executable, start.recorded (stageKey hash b config stage) ≠ some fp) →
    ∀ n stage, (b.stages config executable)[n]? = some stage → n + 1 ∈ done →
      w.world.outputs stage.2.args = some (tools stage.2.args start.world.files)
  others : ∀ args, (∀ stage ∈ b.stages config executable, stage.2.args ≠ args) → w.world.outputs args = none
  skipped : readable →
    (∀ stage ∈ b.stages config executable, start.recorded (stageKey hash b config stage) = some fp) →
    w.world.outputs = fun _ => none

/-- A further goal is done. -/
theorem Building.goal {readable : Prop} {start w : Workshop JavaWorld} {done : List NodeId}
    (h : Building codec hash tools b config executable fp readable start w done) {g : BuildGraph Task}
    (hg : Waiting g (tasksOf hash b config executable fp)) {io : NodeId → CacheIo} {id : NodeId}
    (hpos : 0 < id) (hlt : id < g.len) (hid : id ∉ done) (hwrites : (io id).putFault = none)
    (hreads : readable → (io id).readFault = none) :
    Building codec hash tools b config executable fp readable start (performNode codec tools g io w id) (done ++ [id]) := by
  obtain ⟨n, rfl⟩ := Nat.exists_eq_succ_of_ne_zero (Nat.ne_of_gt hpos)
  obtain ⟨node, stage, hnode, hstage, hpayload⟩ := node_succ hg hlt
  have hmem : stage ∈ b.stages config executable := List.mem_of_getElem? hstage
  have hentry : node.payload.cache = some ⟨stageKey hash b config stage, fp⟩ := by rw [hpayload]; rfl
  have hargs : node.payload.spec.args = stage.2.args := by rw [hpayload]; rfl
  have hbefore : w.recorded (stageKey hash b config stage) = start.recorded (stageKey hash b config stage) := by
    rw [h.recorded n stage hstage, if_neg hid]
  have hperform : performNode codec tools g io w (n + 1) =
      w.perform codec (fun w => some (runGoal tools stage.2.args w)) node.payload (io (n + 1)) := by
    rw [performNode, hnode]
    dsimp only
    rw [hargs]
  have hsound := h.sound.perform (fun w => some (runGoal tools stage.2.args w)) node.payload hwrites
  rw [Nat.succ_eq_add_one, hperform]
  have hdone : ∀ m, m + 1 ∈ done ++ [n + 1] ↔ m + 1 ∈ done ∨ m = n := by
    intro m
    rw [List.mem_append, List.mem_singleton, Nat.add_right_cancel_iff]
  cases h.sound.performed (fun w => some (runGoal tools stage.2.args w)) (io (n + 1)) hentry with
  | failed _ htool _ _ => exact absurd htool nofun
  | cached _ hrecorded hworld hkept =>
    dsimp only at hrecorded hkept
    refine ⟨hsound, by rw [hworld]; exact h.files, ?_, ?_, by rw [hworld]; exact h.others, by rw [hworld]; exact h.skipped⟩
    · intro m stage' hstage'
      rw [hkept]
      by_cases hm : m = n
      · subst hm
        obtain rfl := Option.some.inj (hstage.symm.trans hstage')
        rw [hrecorded, if_pos (List.mem_append_right _ List.mem_cons_self)]
      · rw [h.recorded m stage' hstage']
        simp only [hdone m, hm, or_false]
    · intro hchanged
      exact absurd (hbefore ▸ hrecorded) (hchanged stage hmem)
  | executed world _ htool hworld hrecorded hmissed =>
    obtain rfl := Option.some.inj htool
    dsimp only at hrecorded hmissed
    rw [runGoal, if_neg (stage_plain hmem).2] at hworld
    refine ⟨hsound, by rw [hworld]; exact h.files, ?_, ?_, ?_, ?_⟩
    · intro m stage' hstage'
      rw [hrecorded]
      by_cases hm : m = n
      · subst hm
        obtain rfl := Option.some.inj (hstage.symm.trans hstage')
        rw [if_pos rfl, if_pos (List.mem_append_right _ List.mem_cons_self)]
      · rw [if_neg fun hkey => hm (stage_of_key hstage hstage' hkey).symm, h.recorded m stage' hstage']
        simp only [hdone m, hm, or_false]
    · intro hchanged m stage' hstage' hmdone
      rw [hworld]
      dsimp only
      by_cases hm : m = n
      · subst hm
        obtain rfl := Option.some.inj (hstage.symm.trans hstage')
        rw [Function.update_self, h.files]
      · rw [Function.update_of_ne fun hsame => hm (stage_of_args hstage' hstage hsame)]
        exact h.made hchanged m stage' hstage' (((hdone m).mp hmdone).resolve_right hm)
    · intro args hother
      rw [hworld]
      dsimp only
      rw [Function.update_of_ne (Ne.symm (hother stage hmem))]
      exact h.others args hother
    · intro hreadable hsame
      exact absurd (hbefore.trans (hsame stage hmem)) (hmissed (hreads hreadable))

/-- The remaining goals are done. -/
theorem Building.goals {readable : Prop} {start w : Workshop JavaWorld} {done : List NodeId}
    (h : Building codec hash tools b config executable fp readable start w done) {g : BuildGraph Task}
    (hg : Waiting g (tasksOf hash b config executable fp)) {io : NodeId → CacheIo} {rest : List NodeId}
    (hnodup : (done ++ rest).Nodup) (hrest : ∀ id ∈ rest, 0 < id ∧ id < g.len) (hwrites : ∀ id, (io id).putFault = none)
    (hreads : readable → ∀ id, (io id).readFault = none) :
    Building codec hash tools b config executable fp readable start (performAll codec tools g io rest w) (done ++ rest) := by
  induction rest generalizing w done with
  | nil =>
    rw [List.append_nil]
    exact h
  | cons id rest ih =>
    have hsplit : done ++ id :: rest = (done ++ [id]) ++ rest := by
      rw [List.append_assoc, List.singleton_append]
    have hid : id ∉ done := fun hmem => (List.nodup_append.mp hnodup).2.2 id hmem id List.mem_cons_self rfl
    obtain ⟨hpos, hlt⟩ := hrest id List.mem_cons_self
    have hstep := h.goal hg hpos hlt hid (hwrites id) fun hreadable => hreads hreadable id
    rw [hsplit] at hnodup ⊢
    exact ih hstep hnodup fun id hmem => hrest id (List.mem_cons_of_mem _ hmem)

/-- A build starts without outputs. -/
theorem Building.start (tools : JavaTools) (readable : Prop) {w : Workshop JavaWorld} (hsound : w.Sound codec) {g : BuildGraph Task}
    (hg : Waiting g (tasksOf hash b config executable fp)) {io : NodeId → CacheIo} (hwrites : (io 0).putFault = none) :
    Building codec hash tools b config executable fp readable (performNode codec tools g io w 0)
      (performNode codec tools g io w 0) [] ∧
    (performNode codec tools g io w 0).world.files = w.world.files ∧
    ∀ key, (performNode codec tools g io w 0).recorded key = w.recorded key := by
  obtain ⟨node, hnode, hpayload⟩ := node_zero hg
  have hentry : node.payload.cache = none := by rw [hpayload]; rfl
  have hargs : node.payload.spec.args = ["clean"] := by rw [hpayload]; rfl
  have hperform : performNode codec tools g io w 0 =
      w.perform codec (fun w => some (runGoal tools ["clean"] w)) node.payload (io 0) := by
    rw [performNode, hnode]
    dsimp only
    rw [hargs]
  obtain ⟨hworld, hkept⟩ := hsound.performed_uncached (fun w => some (runGoal tools ["clean"] w)) (io 0) hentry
  rw [Option.getD_some, runGoal, if_pos rfl] at hworld
  rw [hperform]
  refine ⟨⟨hsound.perform _ _ hwrites, rfl, fun n stage _ => ?_, ?_, fun args _ => by rw [hworld], fun _ _ => by rw [hworld]⟩,
    by rw [hworld], hkept⟩
  · rw [if_neg List.not_mem_nil]
  · exact fun _ n stage _ hdone => absurd hdone List.not_mem_nil

/-- After a build. -/
structure Built (codec : RecordCodec) (hash : Bytes → String) (tools : JavaTools) (b : JavaBackend)
    (config : JavaProjectConfig) (executable fp : String) (readable : Prop) (w w' : Workshop JavaWorld) : Prop where
  sound : w'.Sound codec
  files : w'.world.files = w.world.files
  recorded : ∀ stage ∈ b.stages config executable, w'.recorded (stageKey hash b config stage) = some fp
  made : (∀ stage ∈ b.stages config executable, w.recorded (stageKey hash b config stage) ≠ some fp) →
    ∀ stage ∈ b.stages config executable, w'.world.outputs stage.2.args = some (tools stage.2.args w.world.files)
  others : ∀ args, (∀ stage ∈ b.stages config executable, stage.2.args ≠ args) → w'.world.outputs args = none
  skipped : readable →
    (∀ stage ∈ b.stages config executable, w.recorded (stageKey hash b config stage) = some fp) →
    w'.world.outputs = fun _ => none

/-- A build removes the outputs and does all goals. -/
theorem Built.performAll {readable : Prop} {w : Workshop JavaWorld} (hsound : w.Sound codec) {g : BuildGraph Task}
    (hg : Waiting g (tasksOf hash b config executable fp)) {order : List NodeId} (horder : g.IsTopological order)
    {io : NodeId → CacheIo} (hwrites : ∀ id, (io id).putFault = none)
    (hreads : readable → ∀ id, (io id).readFault = none) :
    Built codec hash tools b config executable fp readable w (performAll codec tools g io order w) := by
  obtain ⟨rest, rfl, hnodup, hrest⟩ := hg.order horder
  obtain ⟨hstart, hfiles, hkept⟩ := Building.start tools readable hsound hg (hwrites 0)
  have hbuilding := hstart.goals hg (by rw [List.nil_append]; exact hnodup) (fun id hid => (hrest id).mp hid) hwrites hreads
  rw [List.nil_append] at hbuilding
  have hall : ∀ n stage, (b.stages config executable)[n]? = some stage → n + 1 ∈ rest := by
    intro n stage hstage
    refine (hrest (n + 1)).mpr ⟨Nat.succ_pos n, ?_⟩
    rw [len_eq hg]
    exact Nat.succ_lt_succ (List.getElem?_eq_some_iff.mp hstage).1
  have hperform : Java.performAll codec tools g io (0 :: rest) w =
      Java.performAll codec tools g io rest (performNode codec tools g io w 0) := rfl
  rw [hperform]
  refine ⟨hbuilding.sound, hbuilding.files.trans hfiles, ?_, ?_, hbuilding.others, ?_⟩
  · intro stage hmem
    obtain ⟨n, hstage⟩ := List.getElem?_of_mem hmem
    rw [hbuilding.recorded n stage hstage, if_pos (hall n stage hstage)]
  · intro hchanged stage hmem
    obtain ⟨n, hstage⟩ := List.getElem?_of_mem hmem
    rw [← hfiles]
    refine hbuilding.made (fun stage hstage => ?_) n stage hstage (hall n stage hstage)
    rw [hkept]
    exact hchanged stage hstage
  · intro hreadable hsame
    refine hbuilding.skipped hreadable fun stage hstage => ?_
    rw [hkept]
    exact hsame stage hstage

/-- The outputs of a clean build are those of all goals. -/
theorem Built.outputs_eq {readable readable' : Prop} {w w' v v' : Workshop JavaWorld}
    (h : Built codec hash tools b config executable fp readable w w')
    (hv : Built codec hash tools b config executable fp readable' v v') (hfiles : w.world.files = v.world.files)
    (hw : ∀ stage ∈ b.stages config executable, w.recorded (stageKey hash b config stage) ≠ some fp)
    (hfresh : ∀ stage ∈ b.stages config executable, v.recorded (stageKey hash b config stage) ≠ some fp) :
    w'.world.outputs = v'.world.outputs := by
  funext args
  by_cases hargs : ∃ stage ∈ b.stages config executable, stage.2.args = args
  · obtain ⟨stage, hmem, rfl⟩ := hargs
    rw [h.made hw stage hmem, hv.made hfresh stage hmem, hfiles]
  · have hother : ∀ stage ∈ b.stages config executable, stage.2.args ≠ args := fun stage hmem hsame =>
      hargs ⟨stage, hmem, hsame⟩
    rw [h.others args hother, hv.others args hother]

end Build

/-! ## Runs of builds -/

section Sites

open JavaBackend

variable {codec : RecordCodec} {hash : Bytes → String} {tools : JavaTools} {b : JavaBackend} {config : JavaProjectConfig}

/-- Between builds the cache has the fingerprint of the last one for all goals. -/
structure Site.Inv (codec : RecordCodec) (hash : Bytes → String) (b : JavaBackend) (config : JavaProjectConfig)
    (s : Site) : Prop where
  sound : s.shop.Sound codec
  recorded : ∀ executable, ∀ stage ∈ b.stages config executable,
    s.shop.recorded (stageKey hash b config stage) = s.built.map (b.fingerprint hash config)
  found : s.built.isSome → (b.executable config).isSome

/-- Nothing is known at the start. -/
theorem Site.inv_new (files : ProjectFiles) (process : ℕ) : (Site.new files process).Inv codec hash b config where
  sound := Workshop.sound_new _ process
  recorded := fun _ _ _ => rfl
  found := fun hbuilt => absurd hbuilt Bool.false_ne_true

/-- The same fingerprint is made when the same is hashed. -/
theorem fingerprint_eq_iff (hhash : HexHash hash) {files files' : ProjectFiles} :
    b.fingerprint hash config files = b.fingerprint hash config files' ↔
      SameHashed files files' (b.hashedText config files) (b.hashedText config files') :=
  orNoFp_eq_iff hhash

/-- The goals of two executables have the same keys. -/
theorem exists_stageKey {executable executable' : String} {stage : String × CommandSpec}
    (hstage : stage ∈ b.stages config executable) :
    ∃ stage' ∈ b.stages config executable', stageKey hash b config stage' = stageKey hash b config stage := by
  have hmem := @List.mem_map_of_mem _ _ _ _ (fun stage : String × CommandSpec => (stage.1, stage.2.args)) hstage
  rw [stages_goals, ← @stages_goals b config executable'] at hmem
  obtain ⟨stage', hstage', hsame⟩ := List.mem_map.mp hmem
  refine ⟨stage', hstage', ?_⟩
  rw [stageKey, stageKey, (Prod.mk.inj hsame).1]

/-- A build of a regular run. -/
theorem Site.Inv.built (tools : JavaTools) {s : Site} (h : s.Inv codec hash b config) {order : List NodeId} {io : NodeId → CacheIo}
    (hregular : Regular hash b config [.build order io]) {g : BuildGraph Task}
    (hok : b.createTasksFromConfig hash config s.shop.world.files = .ok g) :
    ∃ executable, b.executable config = some executable ∧
      Built codec hash tools b config executable (b.fingerprint hash config s.shop.world.files)
        (Readable [.build order io]) s.shop (performAll codec tools g io order s.shop) := by
  obtain ⟨executable, hexecutable, hg⟩ := createTasksFromConfig_waiting hok
  obtain ⟨hwrites, horder⟩ := hregular order io List.mem_cons_self
  exact ⟨executable, hexecutable, Built.performAll h.sound hg (horder _ g hok) hwrites
    fun hreadable => hreadable order io List.mem_cons_self⟩

/-- An event of a regular run keeps what is known. -/
theorem Site.Inv.step {s : Site} (h : s.Inv codec hash b config) {event : Event}
    (hregular : Regular hash b config [event]) : (s.step codec hash tools b config event).Inv codec hash b config := by
  cases event with
  | edit files => exact ⟨⟨h.sound.inner, h.sound.backed, h.sound.stored⟩, h.recorded, h.found⟩
  | restart process => exact ⟨h.sound.reopen process, h.recorded, h.found⟩
  | build order io =>
    rw [Site.step, Site.build]
    cases hok : b.createTasksFromConfig hash config s.shop.world.files with
    | error e => exact h
    | ok g =>
      obtain ⟨executable, hexecutable, hbuilt⟩ := h.built tools hregular hok
      refine ⟨hbuilt.sound, fun other stage hstage => ?_, fun _ => by rw [hexecutable]; rfl⟩
      obtain ⟨stage', hstage', hkey⟩ := @exists_stageKey hash b config other executable stage hstage
      rw [← hkey]
      exact hbuilt.recorded stage' hstage'

/-- A build leaves the outputs of a clean build when something else is hashed than for the last one. -/
theorem Site.Inv.buildsClean (hhash : HexHash hash) {s : Site} (h : s.Inv codec hash b config) {order : List NodeId}
    {io : NodeId → CacheIo} (hregular : Regular hash b config [.build order io]) (hchanged : s.Changed b config) :
    s.BuildsClean codec hash tools b config order io := by
  intro g hok
  obtain ⟨executable, hexecutable, hbuilt⟩ := h.built tools hregular hok
  obtain ⟨executable', hexecutable', hclean⟩ :=
    (@Site.inv_new codec hash b config s.shop.world.files 0).built tools hregular hok
  obtain rfl := Option.some.inj (hexecutable.symm.trans hexecutable')
  refine hbuilt.outputs_eq hclean rfl (fun stage hstage hrecorded => ?_) fun stage _ => nofun
  rw [h.recorded executable stage hstage] at hrecorded
  obtain ⟨old, hold, hsame⟩ := Option.map_eq_some_iff.mp hrecorded
  exact hchanged old hold ((fingerprint_eq_iff hhash).mp hsame)

/-- A build that can read the cache leaves the outputs of a clean build only when something else is hashed. -/
theorem Site.Inv.changed_of_buildsClean (hhash : HexHash hash) {s : Site} (h : s.Inv codec hash b config)
    {order : List NodeId} {io : NodeId → CacheIo} (hregular : Regular hash b config [.build order io])
    (hreadable : Readable [.build order io]) (hclean : s.BuildsClean codec hash tools b config order io) :
    s.Changed b config := by
  intro old hold hsame
  obtain ⟨executable, hexecutable⟩ := Option.isSome_iff_exists.mp (h.found (by rw [hold]; rfl))
  obtain ⟨g, hok⟩ := @exists_createTasksFromConfig hash b config executable hexecutable s.shop.world.files
  obtain ⟨executable', hexecutable', hbuilt⟩ := h.built tools hregular hok
  obtain rfl := Option.some.inj (hexecutable.symm.trans hexecutable')
  obtain ⟨executable', hexecutable', hfresh⟩ :=
    (@Site.inv_new codec hash b config s.shop.world.files 0).built tools hregular hok
  obtain rfl := Option.some.inj (hexecutable.symm.trans hexecutable')
  -- All goals are answered from the cache, so there are no outputs.
  have hnone := hbuilt.skipped hreadable fun stage hstage => by
    rw [h.recorded executable stage hstage, hold, Option.map_some, (fingerprint_eq_iff hhash).mpr hsame]
  have hlt := @stages_pos b config executable
  have hmem := List.getElem_mem hlt
  have hmade := hfresh.made (fun stage _ => nofun) _ hmem
  rw [hclean g hok] at hnone
  exact absurd ((congrFun hnone _).symm.trans hmade) nofun

/-- Events before a build keep what is known. -/
theorem Site.inv_after (files : ProjectFiles) (process : ℕ) {events : List Event} (hregular : Regular hash b config events)
    {history : List Event} (hinitial : history <+: events) :
    ((Site.new files process).after codec hash tools b config history).Inv codec hash b config := by
  refine history_induction (fun history =>
    ((Site.new files process).after codec hash tools b config history).Inv codec hash b config)
    (Site.inv_new files process) (fun history event hnext hinv => ?_) hinitial
  rw [Site.after, List.foldl_append]
  refine hinv.step fun order io hmem => ?_
  exact hregular order io (hnext.subset (List.mem_append_right _ hmem))

/-- In every run in which something else is hashed before every build, all builds leave the outputs of a clean build; and
only then, if the cache can be read. -/
theorem alwaysClean_iff_alwaysChanged (hhash : HexHash hash) (files : ProjectFiles) (process : ℕ) {events : List Event}
    (hregular : Regular hash b config events) :
    ((Site.new files process).AlwaysChanged codec hash tools b config events →
      (Site.new files process).AlwaysClean codec hash tools b config events) ∧
    (Readable events → (Site.new files process).AlwaysClean codec hash tools b config events →
      (Site.new files process).AlwaysChanged codec hash tools b config events) := by
  have hlast : ∀ history order io, history ++ [.build order io] <+: events → Event.build order io ∈ events :=
    fun history order io hinitial => hinitial.subset (List.mem_append_right _ List.mem_cons_self)
  have hbuild : ∀ history order io, history ++ [.build order io] <+: events →
      Regular hash b config [.build order io] := by
    intro history order io hinitial order' io' hmem
    rw [List.mem_singleton] at hmem
    exact hregular order' io' (hmem ▸ hlast history order io hinitial)
  have hinv : ∀ history event, history ++ [event] <+: events →
      ((Site.new files process).after codec hash tools b config history).Inv codec hash b config :=
    fun history event hinitial => Site.inv_after files process hregular ((List.prefix_append history _).trans hinitial)
  constructor
  · intro hchanged history order io hinitial
    exact (hinv history _ hinitial).buildsClean hhash (hbuild history order io hinitial) (hchanged history order io hinitial)
  · intro hreadable hclean history order io hinitial
    refine (hinv history _ hinitial).changed_of_buildsClean hhash (hbuild history order io hinitial) ?_
      (hclean history order io hinitial)
    intro order' io' hmem
    rw [List.mem_singleton] at hmem
    exact hreadable order' io' (hmem ▸ hlast history order io hinitial)

/-- A build remembers its files. -/
theorem Site.Inv.build_built {s : Site} (h : s.Inv codec hash b config) {order : List NodeId} {io : NodeId → CacheIo}
    (hregular : Regular hash b config [.build order io]) {executable : String}
    (hexecutable : b.executable config = some executable) :
    (s.build codec hash tools b config order io).built = some s.shop.world.files ∧
      (s.build codec hash tools b config order io).shop.world.files = s.shop.world.files := by
  obtain ⟨g, hok⟩ := @exists_createTasksFromConfig hash b config executable hexecutable s.shop.world.files
  obtain ⟨executable', -, hbuilt⟩ := h.built tools hregular hok
  rw [Site.build, hok]
  exact ⟨rfl, hbuilt.files⟩

end Sites

/-! ## A run -/

/-- A toolchain for a Maven project in `/ws`. -/
def sampleBackend : JavaBackend := ⟨⟨"17", none, some "mvn", none⟩, ["ws"]⟩

/-- A Maven project with tests. -/
def sampleConfig : JavaProjectConfig := ⟨"org.demo", "demo", "1.0", .maven, false⟩

/-- The files of the project. -/
def sampleFiles (source : String) : ProjectFiles where
  tree := .dir (.cons (utf8Bytes "ws") (.dir (.cons (utf8Bytes "Main.java") (.file (utf8Bytes source)) .nil)) .nil)
  unreadable := false

/-- The values of BLAKE3 for the directory of the sample and what is hashed for it. -/
def sampleHashes : JsonCodec.Table Bytes where
  known :=
    [(utf8Bytes "/ws", "3da3aac414e1e666067db9238d67ee514abc1b10d25ef183e925691b993d355a"),
      (utf8Bytes "17mavenMain.java:v1", "afb3b7c4620f778dc226403c018ea469191291f6d52addea8681f2ad16b63463"),
      (utf8Bytes "17mavenMain.java:v2", "b78c3459f66edb370e64e8daf4530bd4c44853c76f17e7b571fdf386a52de8a6")]
  texts_nodup := by decide +kernel
  nonzero := by decide +kernel

/-- The hash has no collisions. -/
theorem sampleHashes_hex : HexHash (hashOf sampleHashes) :=
  hexHash_hashOf (by decide +kernel)

/-- The records of the goals of the sample, as they are written to files. -/
def sampleStored : JsonCodec.Table FingerprintRecord where
  known :=
    ["afb3b7c4620f778dc226403c018ea469191291f6d52addea8681f2ad16b63463",
      "b78c3459f66edb370e64e8daf4530bd4c44853c76f17e7b571fdf386a52de8a6"].flatMap fun fingerprint =>
      ["compile", "package", "test"].map fun mode =>
        let key := "java/maven/3da3aac414e1/" ++ mode ++ "/demo"
        (⟨fingerprint, 0, none, some key⟩, recordText fingerprint key)
  texts_nodup := by decide +kernel
  nonzero := by
    intro entry hentry
    obtain ⟨fingerprint, -, hmodes⟩ := List.mem_flatMap.mp hentry
    obtain ⟨mode, -, rfl⟩ := List.mem_map.mp hmodes
    exact recordText_head _ _

/-- Tools that make an empty output of everything. -/
def sampleTools : JavaTools := fun _ _ => []

/-- A build of the sample in the order of the tasks, without faults. -/
def sampleBuild : Event := .build (List.range 4) fun _ => ⟨0, none, none⟩

/-- An edit of the sample. -/
def sampleEdit : Event := .edit (sampleFiles "v2")

/-- Builds of the sample are regular. -/
theorem regular_sample {events : List Event} (hbuilds : ∀ event ∈ events, event = sampleBuild ∨ event = sampleEdit) :
    Regular (hashOf sampleHashes) sampleBackend sampleConfig events := by
  intro order io hmem
  rcases hbuilds _ hmem with hbuild | hedit
  · obtain ⟨rfl, rfl⟩ := Event.build.inj hbuild
    refine ⟨fun _ => rfl, fun files g hok => ?_⟩
    obtain ⟨executable, -, hg⟩ := JavaBackend.createTasksFromConfig_waiting hok
    have hlen : g.len = 4 := len_eq hg
    exact hlen ▸ hg.isTopological
  · exact absurd hedit nofun

/-- The site after the first build of the sample. -/
theorem built_sample :
    let site := (Site.new (sampleFiles "v1") 1).after (.ofTable sampleStored) (hashOf sampleHashes) sampleTools
      sampleBackend sampleConfig [sampleBuild]
    site.built = some (sampleFiles "v1") ∧ site.shop.world.files = sampleFiles "v1" := by
  have hregular : Regular (hashOf sampleHashes) sampleBackend sampleConfig [sampleBuild] :=
    regular_sample fun event hmem => Or.inl (List.mem_singleton.mp hmem)
  exact (Site.inv_new (sampleFiles "v1") 1).build_built hregular rfl

/-- After an edit all goals are done once more. -/
theorem alwaysClean_sample :
    (Site.new (sampleFiles "v1") 1).AlwaysClean (.ofTable sampleStored) (hashOf sampleHashes) sampleTools sampleBackend
      sampleConfig [sampleBuild, sampleEdit, sampleBuild] := by
  have hregular : Regular (hashOf sampleHashes) sampleBackend sampleConfig [sampleBuild, sampleEdit, sampleBuild] :=
    regular_sample fun event hmem => by simpa [or_comm, or_assoc] using hmem
  refine (alwaysClean_iff_alwaysChanged sampleHashes_hex (sampleFiles "v1") 1 hregular).1 fun history order io hinitial => ?_
  cases history with
  | nil => exact fun old hold => absurd hold nofun
  | cons first history =>
    obtain ⟨rfl, hlater⟩ := List.cons_prefix_cons.mp hinitial
    cases history with
    | nil => exact absurd (List.cons_prefix_cons.mp hlater).1 nofun
    | cons second history =>
      obtain ⟨rfl, hlast⟩ := List.cons_prefix_cons.mp hlater
      cases history with
      | nil =>
        intro old hold hsame
        obtain rfl := Option.some.inj (built_sample.1.symm.trans hold)
        exact absurd (hsame.2 rfl) (by decide +kernel)
      | cons third history =>
        obtain ⟨-, hnone⟩ := List.cons_prefix_cons.mp hlast
        exact absurd (List.prefix_nil.mp hnone) (by simp)

/-- A second build of the same files removes the outputs, and the goals are answered from the cache. -/
theorem not_alwaysClean_twice :
    Regular (hashOf sampleHashes) sampleBackend sampleConfig [sampleBuild, sampleBuild] ∧
      Readable [sampleBuild, sampleBuild] ∧
      ¬ (Site.new (sampleFiles "v1") 1).AlwaysClean (.ofTable sampleStored) (hashOf sampleHashes) sampleTools
        sampleBackend sampleConfig [sampleBuild, sampleBuild] := by
  have hregular : Regular (hashOf sampleHashes) sampleBackend sampleConfig [sampleBuild, sampleBuild] :=
    regular_sample fun event hmem => Or.inl (by simpa using hmem)
  have hreadable : Readable [sampleBuild, sampleBuild] := by
    intro order io hmem
    have hbuild : Event.build order io = sampleBuild := by simpa using hmem
    obtain ⟨rfl, rfl⟩ := Event.build.inj hbuild
    exact fun _ => rfl
  refine ⟨hregular, hreadable, fun hclean => ?_⟩
  have hinv := @Site.inv_after (.ofTable sampleStored) _ sampleTools _ _ (sampleFiles "v1") 1 _ hregular
    [sampleBuild] ⟨[sampleBuild], rfl⟩
  have hlast : [sampleBuild] ⊆ [sampleBuild, sampleBuild] := List.subset_cons_self _ _
  refine hinv.changed_of_buildsClean sampleHashes_hex (fun order io hmem => hregular order io (hlast hmem))
    (fun order io hmem => hreadable order io (hlast hmem)) (hclean [sampleBuild] _ _ ⟨[], rfl⟩) _ built_sample.1 ?_
  rw [built_sample.2]
  exact ⟨rfl, fun _ => rfl⟩

end Forge.Backend.Java
