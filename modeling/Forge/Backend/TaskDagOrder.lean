import Forge.Common.Multimaps
import Forge.Common.Reachability
import Mathlib.Data.List.Nodup
import Mathlib.Data.List.Perm.Subperm
import Mathlib.Data.List.Range
import Mathlib.Data.Nat.Notation

/-!
# The order of named tasks is exact

A dependency leads to a task from the last task with its name. The order exists exactly
when every dependency is the name of a task and no task depends on itself over others, and
then it lists every task once, behind those that it depends on. A pass without progress has
found tasks each of which waits for another one of them.
-/

namespace Forge.Backend.TaskDag

/-!
## The order of named tasks

Tasks that depend on each other by their names are put in an order in passes: every pass
takes the tasks whose dependencies were taken before. A name that several tasks have
stands for the last of them. A pass that takes no task has found a cycle.
-/

variable {T : Type*} (keyFn : T → String) (depsFn : T → List String)

/-- The positions of tasks by their names, the last one first. -/
def keyToIndex (tasks : List T) : List (String × ℕ) :=
  (tasks.zipIdx.map fun (task, idx) => (keyFn task, idx)).reverse

/-- The first dependency that is no task. -/
def unknownDependency (keys : List (String × ℕ)) (tasks : List T) : Option (T × String) :=
  (tasks.flatMap fun task => (depsFn task).map fun dep => (task, dep)).find? fun (_, dep) => (keys.lookup dep).isNone

/-- Whether all dependencies of a task were taken. -/
def allDepsReady (keys : List (String × ℕ)) (resolved : List ℕ) (task : T) : Bool :=
  (depsFn task).all fun dep =>
    match keys.lookup dep with
    | some idx => resolved.contains idx
    | none => false

/-- Take the tasks whose dependencies were taken, in one pass. -/
def pass (keys : List (String × ℕ)) : List (T × ℕ) → List ℕ → List ℕ
  | [], resolved => resolved
  | (task, idx) :: tasks, resolved =>
    if resolved.contains idx then pass keys tasks resolved
    else if allDepsReady depsFn keys resolved task then pass keys tasks (resolved ++ [idx])
    else pass keys tasks resolved

/-- The message about a cycle among the tasks that were not taken. -/
def cycleMessage (tasks : List T) (resolved : List ℕ) : String :=
  "dependency cycle detected among tasks: " ++
    " -> ".intercalate ((tasks.zipIdx.filter fun (_, idx) => !resolved.contains idx).map fun (task, _) => keyFn task)

/-- Make passes until all tasks are taken. There are at most as many passes as tasks. -/
def resolveLoop (keys : List (String × ℕ)) (tasks : List T) : ℕ → List ℕ → Except String (List ℕ)
  | 0, resolved => .ok resolved
  | fuel + 1, resolved =>
    if resolved.length < tasks.length then
      let next := pass depsFn keys tasks.zipIdx resolved
      if next.length = resolved.length then .error (cycleMessage keyFn tasks next)
      else resolveLoop keys tasks fuel next
    else .ok resolved

/-- The positions of tasks in an order in which dependencies come first. -/
def resolveDagOrder (tasks : List T) : Except String (List ℕ) :=
  let keys := keyToIndex keyFn tasks
  match unknownDependency depsFn keys tasks with
  | some (task, dep) => .error ("task `" ++ keyFn task ++ "` depends on unknown task `" ++ dep ++ "`")
  | none => resolveLoop keyFn depsFn keys tasks tasks.length []

variable {keyFn depsFn}

/-- What was taken are different positions of tasks. -/
structure Taken (size : ℕ) (resolved : List ℕ) : Prop where
  nodup : resolved.Nodup
  lt : ∀ idx ∈ resolved, idx < size

/-- Taking a further position. -/
theorem Taken.add {size : ℕ} {resolved : List ℕ} (h : Taken size resolved) {idx : ℕ} (hnew : idx ∉ resolved)
    (hlt : idx < size) : Taken size (resolved ++ [idx]) where
  nodup := by
    refine List.nodup_append.mpr ⟨h.nodup, List.nodup_singleton idx, fun a ha b hb heq => ?_⟩
    exact hnew (List.mem_singleton.mp hb ▸ heq ▸ ha)
  lt := by
    intro i hi
    rcases List.mem_append.mp hi with hi | hi
    · exact h.lt i hi
    · exact List.mem_singleton.mp hi ▸ hlt

/-- A pass takes different positions, and gives none up. -/
theorem Taken.pass {size : ℕ} {keys : List (String × ℕ)} {tasks : List (T × ℕ)} {resolved : List ℕ}
    (h : Taken size resolved) (htasks : ∀ task ∈ tasks, task.2 < size) :
    Taken size (pass depsFn keys tasks resolved) ∧ resolved.length ≤ (TaskDag.pass depsFn keys tasks resolved).length := by
  induction tasks generalizing resolved with
  | nil => exact ⟨h, le_rfl⟩
  | cons entry tasks ih =>
    obtain ⟨task, idx⟩ := entry
    obtain ⟨hidx, hrest⟩ := List.forall_mem_cons.mp htasks
    rw [TaskDag.pass]
    split
    · exact ih h hrest
    · rename_i hnew
      split
      · have hadd : Taken size (resolved ++ [idx]) := h.add (by simpa using hnew) hidx
        have hnext := ih hadd hrest
        rw [List.length_append, List.length_singleton] at hnext
        exact ⟨hnext.1, by omega⟩
      · exact ih h hrest

/-- The loop takes all positions when it can make enough passes. -/
theorem resolveLoop_taken {keys : List (String × ℕ)} {tasks : List T} {fuel : ℕ} {resolved order : List ℕ}
    (h : Taken tasks.length resolved) (hfuel : tasks.length ≤ fuel + resolved.length)
    (hok : resolveLoop keyFn depsFn keys tasks fuel resolved = .ok order) :
    Taken tasks.length order ∧ tasks.length ≤ order.length := by
  induction fuel generalizing resolved with
  | zero =>
    obtain rfl := Except.ok.inj hok
    exact ⟨h, by omega⟩
  | succ fuel ih =>
    rw [resolveLoop] at hok
    split at hok
    · have hnext : Taken tasks.length (pass depsFn keys tasks.zipIdx resolved) ∧
          resolved.length ≤ (pass depsFn keys tasks.zipIdx resolved).length :=
        h.pass fun task htask => by simpa using List.snd_lt_of_mem_zipIdx htask
      dsimp only at hok
      split at hok
      · exact absurd hok nofun
      · exact ih hnext.1 (by omega) hok
    · obtain rfl := Except.ok.inj hok
      exact ⟨h, by omega⟩

/-- The order has every task once. -/
theorem resolveDagOrder_perm {tasks : List T} {order : List ℕ} (hok : resolveDagOrder keyFn depsFn tasks = .ok order) :
    order.Perm (List.range tasks.length) := by
  unfold resolveDagOrder at hok
  dsimp only at hok
  split at hok
  · exact absurd hok nofun
  · have hnone : Taken tasks.length [] := ⟨List.nodup_nil, fun _ hidx => absurd hidx List.not_mem_nil⟩
    obtain ⟨htaken, hlength⟩ := resolveLoop_taken hnone (by simp) hok
    have hsubset : order ⊆ List.range tasks.length := fun idx hidx => List.mem_range.mpr (htaken.lt idx hidx)
    refine (List.subperm_of_subset htaken.nodup hsubset).perm_of_length_le ?_
    rw [List.length_range]
    exact hlength

open Relation Forge.Common

variable {T : Type*} {keyFn : T → String} {depsFn : T → List String}

/-- A name stands for the last task that has it. -/
def LastNamed (keyFn : T → String) (tasks : List T) (name : String) (idx : ℕ) : Prop :=
  (∃ task, tasks[idx]? = some task ∧ keyFn task = name) ∧
    ∀ later task, idx < later → tasks[later]? = some task → keyFn task ≠ name

/-- A task depends on the tasks for which the names of its dependencies stand. -/
def DependsOn (keyFn : T → String) (depsFn : T → List String) (tasks : List T) (dep idx : ℕ) : Prop :=
  ∃ task name, tasks[idx]? = some task ∧ name ∈ depsFn task ∧ LastNamed keyFn tasks name dep

/-- Every dependency is the name of a task. -/
def Known (keyFn : T → String) (depsFn : T → List String) (tasks : List T) : Prop :=
  ∀ task ∈ tasks, ∀ dep ∈ depsFn task, ∃ other ∈ tasks, keyFn other = dep

/-- The passes end with a result, without a limit on their number. -/
inductive Ends (keyFn : T → String) (depsFn : T → List String) (keys : List (String × ℕ)) (tasks : List T) :
    List ℕ → Except String (List ℕ) → Prop where
  | done {resolved : List ℕ} (hall : tasks.length ≤ resolved.length) : Ends keyFn depsFn keys tasks resolved (.ok resolved)
  | stuck {resolved : List ℕ} (hmore : resolved.length < tasks.length)
    (hstuck : (pass depsFn keys tasks.zipIdx resolved).length = resolved.length) :
    Ends keyFn depsFn keys tasks resolved (.error (cycleMessage keyFn tasks (pass depsFn keys tasks.zipIdx resolved)))
  | next {resolved : List ℕ} {result : Except String (List ℕ)} (hmore : resolved.length < tasks.length)
    (hprogress : (pass depsFn keys tasks.zipIdx resolved).length ≠ resolved.length)
    (hrest : Ends keyFn depsFn keys tasks (pass depsFn keys tasks.zipIdx resolved) result) :
    Ends keyFn depsFn keys tasks resolved result

/-! ## The names -/

/-- A further task takes its name. -/
theorem keyToIndex_concat (tasks : List T) (task : T) :
    keyToIndex keyFn (tasks ++ [task]) = (keyFn task, tasks.length) :: keyToIndex keyFn tasks := by
  rw [keyToIndex, List.zipIdx_append, List.map_append, List.reverse_append, Nat.zero_add]
  rfl

/-- A further task takes its name from the others, and leaves the other names. -/
theorem lastNamed_concat_iff {tasks : List T} {task : T} {name : String} {idx : ℕ} :
    LastNamed keyFn (tasks ++ [task]) name idx ↔
      if name = keyFn task then idx = tasks.length else LastNamed keyFn tasks name idx := lastOf_concat_iff

/-- A name is found for the last task that has it. -/
theorem lookup_keyToIndex_iff {tasks : List T} {name : String} {idx : ℕ} :
    (keyToIndex keyFn tasks).lookup name = some idx ↔ LastNamed keyFn tasks name idx := by
  induction tasks using List.reverseRecOn with
  | nil => exact iff_of_false nofun fun h => by simpa using h.1
  | append_singleton tasks task ih =>
    rw [keyToIndex_concat, List.lookup_cons, lastNamed_concat_iff]
    by_cases hname : name = keyFn task
    · rw [hname, beq_self_eq_true, if_pos rfl, @eq_comm _ idx]
      exact ⟨Option.some.inj, congrArg some⟩
    · rw [beq_false_of_ne hname, if_neg hname]
      exact ih

/-- A name is found when a task has it. -/
theorem isSome_lookup_keyToIndex_iff {tasks : List T} {name : String} :
    ((keyToIndex keyFn tasks).lookup name).isSome = true ↔ ∃ task ∈ tasks, keyFn task = name := by
  rw [Option.isSome_iff_exists]
  constructor
  · rintro ⟨idx, hidx⟩
    obtain ⟨⟨task, htask, hnamed⟩, -⟩ := lookup_keyToIndex_iff.mp hidx
    exact ⟨task, List.mem_of_getElem? htask, hnamed⟩
  · rintro ⟨task, htask, hnamed⟩
    induction tasks using List.reverseRecOn with
    | nil => exact absurd htask List.not_mem_nil
    | append_singleton tasks last ih =>
      rw [keyToIndex_concat, List.lookup_cons]
      by_cases hlast : name = keyFn last
      · rw [hlast, beq_self_eq_true]
        exact ⟨_, rfl⟩
      · rw [beq_false_of_ne hlast]
        rcases List.mem_append.mp htask with hold | hnew
        · exact ih hold
        · rw [List.mem_singleton.mp hnew] at hnamed
          exact absurd hnamed.symm hlast

/-- No dependency is found missing exactly when all are known. -/
theorem unknownDependency_eq_none_iff {tasks : List T} :
    unknownDependency depsFn (keyToIndex keyFn tasks) tasks = none ↔ Known keyFn depsFn tasks := by
  have hisNone : ∀ name, ¬ ((keyToIndex keyFn tasks).lookup name).isNone = true ↔ ∃ task ∈ tasks, keyFn task = name := by
    intro name
    rw [← isSome_lookup_keyToIndex_iff, Option.isNone_iff_eq_none, ← Option.ne_none_iff_isSome]
  rw [unknownDependency, List.find?_eq_none]
  constructor
  · intro h task htask dep hdep
    exact (hisNone dep).mp (h (task, dep) (List.mem_flatMap.mpr ⟨task, htask, List.mem_map.mpr ⟨dep, hdep, rfl⟩⟩))
  · intro h pair hpair
    obtain ⟨task, htask, hmap⟩ := List.mem_flatMap.mp hpair
    obtain ⟨dep, hdep, rfl⟩ := List.mem_map.mp hmap
    exact (hisNone dep).mpr (h task htask dep hdep)

/-! ## A pass -/

/-- The dependencies of a task were taken when those that it depends on were. -/
theorem allDepsReady_iff {tasks : List T} (hknown : Known keyFn depsFn tasks) {resolved : List ℕ} {task : T} {idx : ℕ}
    (htask : tasks[idx]? = some task) :
    allDepsReady depsFn (keyToIndex keyFn tasks) resolved task = true ↔
      ∀ dep, DependsOn keyFn depsFn tasks dep idx → dep ∈ resolved := by
  rw [allDepsReady, List.all_eq_true]
  constructor
  · rintro hready dep ⟨other, name, hother, hname, hlast⟩
    obtain rfl := Option.some.inj (htask.symm.trans hother)
    have hdep := hready name hname
    rw [lookup_keyToIndex_iff.mpr hlast] at hdep
    exact List.contains_iff_mem.mp hdep
  · intro hdeps name hname
    have hfound := isSome_lookup_keyToIndex_iff.mpr (hknown task (List.mem_of_getElem? htask) name hname)
    obtain ⟨dep, hdep⟩ := Option.isSome_iff_exists.mp hfound
    rw [hdep]
    exact List.contains_iff_mem.mpr (hdeps dep ⟨task, name, htask, hname, lookup_keyToIndex_iff.mp hdep⟩)

/-- A pass keeps what was taken in order. -/
theorem pass_follows {tasks : List T} (hknown : Known keyFn depsFn tasks) {rest : List (T × ℕ)} {resolved : List ℕ}
    (hrest : ∀ entry ∈ rest, tasks[entry.2]? = some entry.1)
    (h : Follows (DependsOn keyFn depsFn tasks) resolved) :
    Follows (DependsOn keyFn depsFn tasks) (pass depsFn (keyToIndex keyFn tasks) rest resolved) := by
  induction rest generalizing resolved with
  | nil => exact h
  | cons entry rest ih =>
    obtain ⟨task, idx⟩ := entry
    obtain ⟨htask, hrest⟩ := List.forall_mem_cons.mp hrest
    rw [pass]
    split
    · exact ih hrest h
    · split
      · rename_i hready
        exact ih hrest (h.concat ((allDepsReady_iff hknown htask).mp hready))
      · exact ih hrest h

/-- A pass takes nothing back. -/
theorem length_le_length_pass {keys : List (String × ℕ)} {rest : List (T × ℕ)} {resolved : List ℕ} :
    resolved.length ≤ (pass depsFn keys rest resolved).length := by
  induction rest generalizing resolved with
  | nil => exact le_rfl
  | cons entry rest ih =>
    rw [pass]
    split
    · exact ih
    · split
      · exact (List.sublist_append_left _ _).length_le.trans ih
      · exact ih

/-- After a pass without progress every task was taken before, or waits for a dependency. -/
theorem pass_stuck {keys : List (String × ℕ)} {rest : List (T × ℕ)} {resolved : List ℕ}
    (hstuck : (pass depsFn keys rest resolved).length = resolved.length) :
    ∀ entry ∈ rest, entry.2 ∈ resolved ∨ allDepsReady depsFn keys resolved entry.1 ≠ true := by
  induction rest with
  | nil => exact fun entry hentry => absurd hentry List.not_mem_nil
  | cons entry rest ih =>
    rw [pass] at hstuck
    split at hstuck
    · rename_i htaken
      exact List.forall_mem_cons.mpr ⟨Or.inl (List.contains_iff_mem.mp htaken), ih hstuck⟩
    · split at hstuck
      · have hgrow : (resolved ++ [entry.2]).length ≤ resolved.length := length_le_length_pass.trans_eq hstuck
        rw [List.length_append, List.length_singleton] at hgrow
        omega
      · rename_i hwaits
        exact List.forall_mem_cons.mpr ⟨Or.inr hwaits, ih hstuck⟩

/-- The tasks with their positions. -/
theorem getElem?_of_mem_zipIdx {tasks : List T} : ∀ entry ∈ tasks.zipIdx, tasks[entry.2]? = some entry.1 :=
  fun _ hentry => List.mem_zipIdx_iff_getElem?.mp hentry

/-- What a task depends on has a position. -/
theorem DependsOn.lt {tasks : List T} {dep idx : ℕ} (h : DependsOn keyFn depsFn tasks dep idx) :
    dep < tasks.length ∧ idx < tasks.length := by
  obtain ⟨task, name, htask, -, ⟨other, hother, -⟩, -⟩ := h
  exact ⟨(List.getElem?_eq_some_iff.mp hother).1, (List.getElem?_eq_some_iff.mp htask).1⟩

/-- When tasks remain after a pass without progress, there is a cycle among them. -/
theorem not_acyclic_of_stuck {tasks : List T} (hknown : Known keyFn depsFn tasks) {resolved : List ℕ}
    (hmore : resolved.length < tasks.length)
    (hstuck : (pass depsFn (keyToIndex keyFn tasks) tasks.zipIdx resolved).length = resolved.length) :
    ¬ Acyclic (DependsOn keyFn depsFn tasks) := by
  intro hacyclic
  have hwf : WellFounded (DependsOn keyFn depsFn tasks) :=
    hacyclic.wellFounded (Finset.range tasks.length) fun _ _ hedge => Finset.mem_range.mpr hedge.lt.1
  have hremains : {idx | idx < tasks.length ∧ idx ∉ resolved}.Nonempty := by
    by_contra hnone
    have hall : List.range tasks.length ⊆ resolved := fun idx hidx =>
      of_not_not fun hnot => hnone ⟨idx, List.mem_range.mp hidx, hnot⟩
    have hlength := (List.subperm_of_subset List.nodup_range hall).length_le
    rw [List.length_range] at hlength
    omega
  -- A remaining task that depends on no other remaining one would have been taken.
  obtain ⟨idx, ⟨hlt, hnew⟩, hmin⟩ := hwf.has_min _ hremains
  have htask : tasks[idx]? = some tasks[idx] := List.getElem?_eq_getElem hlt
  rcases pass_stuck hstuck (tasks[idx], idx) (List.mem_zipIdx_iff_getElem?.mpr htask) with htaken | hwaits
  · exact hnew htaken
  · refine hwaits ((allDepsReady_iff hknown htask).mpr fun dep hdep => ?_)
    by_contra hdepnew
    exact hmin dep ⟨hdep.lt.1, hdepnew⟩ hdep

/-! ## The passes -/

/-- The passes end with what the loop returns, when it can make enough of them. -/
theorem ends_resolveLoop {keys : List (String × ℕ)} {tasks : List T} {fuel : ℕ} {resolved : List ℕ}
    (hfuel : tasks.length ≤ fuel + resolved.length) :
    Ends keyFn depsFn keys tasks resolved (resolveLoop keyFn depsFn keys tasks fuel resolved) := by
  induction fuel generalizing resolved with
  | zero => exact .done (by omega)
  | succ fuel ih =>
    rw [resolveLoop]
    split
    · rename_i hmore
      dsimp only
      have hgrow : resolved.length ≤ (pass depsFn keys tasks.zipIdx resolved).length := length_le_length_pass
      split
      · rename_i hstuck
        exact .stuck hmore hstuck
      · rename_i hprogress
        exact .next hmore hprogress (ih (by omega))
    · rename_i hdone
      exact .done (Nat.le_of_not_lt hdone)

/-- The passes end in an order when there is no cycle, and with an error when there is one. -/
theorem Ends.ordered {tasks : List T} (hknown : Known keyFn depsFn tasks) {resolved : List ℕ}
    {result : Except String (List ℕ)} (h : Ends keyFn depsFn (keyToIndex keyFn tasks) tasks resolved result)
    (hfollows : Follows (DependsOn keyFn depsFn tasks) resolved) :
    (∃ order, result = .ok order ∧ Follows (DependsOn keyFn depsFn tasks) order) ∨
      ((∃ message, result = .error message) ∧ ¬ Acyclic (DependsOn keyFn depsFn tasks)) := by
  induction h with
  | done => exact Or.inl ⟨_, rfl, hfollows⟩
  | stuck hmore hstuck => exact Or.inr ⟨⟨_, rfl⟩, not_acyclic_of_stuck hknown hmore hstuck⟩
  | next _ _ _ ih => exact ih (pass_follows hknown getElem?_of_mem_zipIdx hfollows)

/-- The order exists exactly when all dependencies are known and have no cycle. Its passes
end, and it has every task once, behind those that it depends on. -/
theorem resolveDagOrder_exact (keyFn : T → String) (depsFn : T → List String) (tasks : List T) :
    (Known keyFn depsFn tasks →
      Ends keyFn depsFn (keyToIndex keyFn tasks) tasks [] (resolveDagOrder keyFn depsFn tasks)) ∧
    ((∃ order, resolveDagOrder keyFn depsFn tasks = .ok order) ↔
      Known keyFn depsFn tasks ∧ Acyclic (DependsOn keyFn depsFn tasks)) ∧
    ∀ order, resolveDagOrder keyFn depsFn tasks = .ok order →
      order.Perm (List.range tasks.length) ∧ Follows (DependsOn keyFn depsFn tasks) order := by
  have hends : Known keyFn depsFn tasks →
      Ends keyFn depsFn (keyToIndex keyFn tasks) tasks [] (resolveDagOrder keyFn depsFn tasks) := by
    intro hknown
    rw [resolveDagOrder, unknownDependency_eq_none_iff.mpr hknown]
    exact ends_resolveLoop (by simp)
  have hok_known : ∀ order, resolveDagOrder keyFn depsFn tasks = .ok order → Known keyFn depsFn tasks := by
    intro order hok
    rw [resolveDagOrder] at hok
    split at hok
    · exact absurd hok nofun
    · rename_i hnone
      exact unknownDependency_eq_none_iff.mp hnone
  have hfollows : ∀ order, resolveDagOrder keyFn depsFn tasks = .ok order →
      Follows (DependsOn keyFn depsFn tasks) order := by
    intro order hok
    have hknown := hok_known order hok
    rcases (hends hknown).ordered hknown (.nil _) with ⟨other, hother, hfollows⟩ | ⟨⟨message, herror⟩, -⟩
    · obtain rfl := Except.ok.inj (hok.symm.trans hother)
      exact hfollows
    · exact absurd (hok.symm.trans herror) nofun
  refine ⟨hends, ⟨?_, ?_⟩, fun order hok => ⟨resolveDagOrder_perm hok, hfollows order hok⟩⟩
  · rintro ⟨order, hok⟩
    refine ⟨hok_known order hok, (hfollows order hok).acyclic fun dep idx hdep => ?_⟩
    exact (resolveDagOrder_perm hok).mem_iff.mpr (List.mem_range.mpr hdep.lt.2)
  · rintro ⟨hknown, hacyclic⟩
    rcases (hends hknown).ordered hknown (.nil _) with ⟨order, hok, -⟩ | ⟨-, hcycle⟩
    · exact ⟨order, hok⟩
    · exact absurd hacyclic hcycle

example : resolveDagOrder Prod.fst Prod.snd [("b", ["a"]), ("a", [])] = .ok [1, 0] := by decide

end Forge.Backend.TaskDag
