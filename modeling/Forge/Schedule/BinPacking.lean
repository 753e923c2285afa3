import Forge.Common.KeySort
import Forge.Common.ListScheduling
import Forge.Graph.BuildGraph
import Mathlib.Data.List.Sort
import Mathlib.Data.Rat.Cast.Order
import Mathlib.Tactic.FieldSimp

/-!
# Packing tasks for several agents

`partition_tasks` gives the tasks to agents, the longest first and each to the agent with
the least work so far. Durations have a greatest value, and adding past it panics.
-/

namespace Forge.Schedule

open Forge.Common Forge.Graph

/-- The number of nanoseconds past the greatest duration: 64 bits of seconds. -/
def durationLimit : ℕ := 2 ^ 64 * 10 ^ 9

/-- A length of time, in nanoseconds. -/
structure Duration where
  nanos : ℕ
  lt_limit : nanos < durationLimit
  deriving DecidableEq

/-- No time at all. -/
def Duration.zero : Duration := ⟨0, by decide⟩

/-- The sum of two durations, unless it is past the greatest one. -/
def Duration.checkedAdd (a b : Duration) : Option Duration :=
  if h : a.nanos + b.nanos < durationLimit then some ⟨a.nanos + b.nanos, h⟩ else none

/-- How long a task is expected to take. -/
structure TaskTimingEstimate where
  nodeId : NodeId
  label : String
  estimatedDuration : Duration
  deriving DecidableEq

/-- What an agent is to do. -/
structure AgentBucket where
  agentId : ℕ
  totalDuration : Duration
  taskIds : List NodeId
  deriving DecidableEq

namespace DteBinPacker

/-- The order of the buckets: by their work, and then by their agents. -/
def leastFirst (a b : AgentBucket) : Bool :=
  decide (a.totalDuration.nanos < b.totalDuration.nanos) ||
    decide (a.totalDuration.nanos = b.totalDuration.nanos ∧ a.agentId ≤ b.agentId)

/-- Give a task to the first bucket in order. `none` is the panic of an addition past the greatest duration, or of the
index into no buckets. -/
def assign (buckets : List AgentBucket) (task : TaskTimingEstimate) : Option (List AgentBucket) :=
  match buckets.mergeSort leastFirst with
  | [] => none
  | first :: rest =>
    (first.totalDuration.checkedAdd task.estimatedDuration).map fun total =>
      { first with totalDuration := total, taskIds := first.taskIds ++ [task.nodeId] } :: rest

/-- The tasks from the longest to the shortest, equal ones in their order. -/
def longestFirst (tasks : List TaskTimingEstimate) : List TaskTimingEstimate :=
  tasks.mergeSort fun a b => decide (b.estimatedDuration.nanos ≤ a.estimatedDuration.nanos)

/-- The buckets of at least one agent, without tasks. -/
def emptyBuckets (agentCount : ℕ) : List AgentBucket :=
  (List.range (max agentCount 1)).map fun id => ⟨id, .zero, []⟩

/-- Part the tasks among the agents. -/
def partitionTasks (tasks : List TaskTimingEstimate) (agentCount : ℕ) : Option (List AgentBucket) :=
  ((longestFirst tasks).foldlM assign (emptyBuckets agentCount)).map fun buckets =>
    buckets.mergeSort fun a b => decide (a.agentId ≤ b.agentId)

/-! ## The loop -/

/-- The lengths of tasks. -/
def lengths (tasks : List TaskTimingEstimate) : List ℕ := tasks.map (·.estimatedDuration.nanos)

/-- The buckets hold the tasks that were given to their agents, of those that were given out at all. -/
structure Packed (count : ℕ) (given : List TaskTimingEstimate) (tasksOf : ℕ → List TaskTimingEstimate)
    (buckets : List AgentBucket) : Prop where
  agents : (buckets.map (·.agentId)).Perm (List.range count)
  ids : ∀ bucket ∈ buckets, bucket.taskIds = (tasksOf bucket.agentId).map (·.nodeId)
  totals : ∀ bucket ∈ buckets, bucket.totalDuration.nanos = (lengths (tasksOf bucket.agentId)).sum
  perm : ((List.range count).flatMap tasksOf).Perm given
  loads : LeastLoaded count (lengths given) ((List.range count).map fun agent => lengths (tasksOf agent))

/-- At the start nothing is given out. -/
theorem packed_emptyBuckets (agentCount : ℕ) : Packed (max agentCount 1) [] (fun _ => []) (emptyBuckets agentCount) where
  agents := by
    rw [emptyBuckets, List.map_map]
    exact List.Perm.of_eq (List.map_id _)
  ids := by
    intro bucket hbucket
    obtain ⟨id, -, rfl⟩ := List.mem_map.mp hbucket
    rfl
  totals := by
    intro bucket hbucket
    obtain ⟨id, -, rfl⟩ := List.mem_map.mp hbucket
    rfl
  perm := by
    rw [List.flatMap_eq_nil_iff.mpr fun _ _ => rfl]
  loads := by
    have hnil : ((List.range (max agentCount 1)).map fun _ => lengths []) = List.replicate (max agentCount 1) [] := by
      rw [List.map_const', List.length_range]
      rfl
    rw [hnil]
    exact .nil

/-- The buckets in another order hold the same. -/
theorem Packed.of_perm {count : ℕ} {given : List TaskTimingEstimate} {tasksOf : ℕ → List TaskTimingEstimate}
    {buckets buckets' : List AgentBucket} (h : Packed count given tasksOf buckets) (hperm : buckets'.Perm buckets) :
    Packed count given tasksOf buckets' where
  agents := (hperm.map _).trans h.agents
  ids := fun bucket hbucket => h.ids bucket (hperm.mem_iff.mp hbucket)
  totals := fun bucket hbucket => h.totals bucket (hperm.mem_iff.mp hbucket)
  perm := h.perm
  loads := h.loads

/-- The first bucket in order has the least work. -/
theorem least_of_mergeSort {buckets rest : List AgentBucket} {first : AgentBucket}
    (h : buckets.mergeSort leastFirst = first :: rest) :
    ∀ bucket ∈ rest, first.totalDuration.nanos ≤ bucket.totalDuration.nanos := by
  have hsorted := @List.pairwise_mergeSort _ leastFirst
    (fun a b c hab hbc => by simp only [leastFirst, Bool.or_eq_true, decide_eq_true_eq] at *; omega)
    (fun a b => by simp only [leastFirst, Bool.or_eq_true, decide_eq_true_eq]; omega) buckets
  rw [h] at hsorted
  intro bucket hbucket
  have hle := (List.pairwise_cons.mp hsorted).1 bucket hbucket
  simp only [leastFirst, Bool.or_eq_true, decide_eq_true_eq] at hle
  omega

/-- Giving one more task to an agent gives nothing to the others. -/
theorem Packed.assign {count : ℕ} {given : List TaskTimingEstimate} {tasksOf : ℕ → List TaskTimingEstimate}
    {buckets buckets' : List AgentBucket} (h : Packed count given tasksOf buckets) {task : TaskTimingEstimate}
    (hassign : assign buckets task = some buckets') : ∃ tasksOf', Packed count (given ++ [task]) tasksOf' buckets' := by
  rw [DteBinPacker.assign] at hassign
  cases horder : buckets.mergeSort leastFirst with
  | nil =>
    rw [horder] at hassign
    exact absurd hassign (by simp)
  | cons first rest =>
    rw [horder] at hassign
    obtain ⟨total, htotal, rfl⟩ := Option.map_eq_some_iff.mp hassign
    have hsorted := h.of_perm (horder ▸ List.mergeSort_perm buckets leastFirst)
    obtain ⟨hagents, hids, htotals, hperm, hloads⟩ := hsorted
    rw [List.map_cons] at hagents
    obtain ⟨hfirst, hrest⟩ := List.forall_mem_cons.mp hids
    obtain ⟨hfirstTotal, hrestTotal⟩ := List.forall_mem_cons.mp htotals
    have hnotmem : ∀ bucket ∈ rest, bucket.agentId ≠ first.agentId := by
      intro bucket hbucket heq
      have hnodup := hagents.nodup_iff.mpr List.nodup_range
      exact (List.nodup_cons.mp hnodup).1 (heq ▸ List.mem_map_of_mem hbucket)
    have hothers : ∀ bucket ∈ rest,
        Function.update tasksOf first.agentId (tasksOf first.agentId ++ [task]) bucket.agentId = tasksOf bucket.agentId :=
      fun bucket hbucket => Function.update_of_ne (hnotmem bucket hbucket) _ _
    have hself : Function.update tasksOf first.agentId (tasksOf first.agentId ++ [task]) first.agentId =
        tasksOf first.agentId ++ [task] := Function.update_self _ _ _
    refine ⟨Function.update tasksOf first.agentId (tasksOf first.agentId ++ [task]), ?_, ?_, ?_, ?_, ?_⟩
    · exact hagents
    · refine List.forall_mem_cons.mpr ⟨?_, fun bucket hbucket => ?_⟩
      · simp only [hself, hfirst, List.map_append, List.map_singleton]
      · rw [hothers bucket hbucket, hrest bucket hbucket]
    · refine List.forall_mem_cons.mpr ⟨?_, fun bucket hbucket => ?_⟩
      · have hsum : total.nanos = first.totalDuration.nanos + task.estimatedDuration.nanos := by
          rw [Duration.checkedAdd] at htotal
          split at htotal
          · rw [← Option.some.inj htotal]
          · exact absurd htotal (by simp)
        simp only [hself, hsum, hfirstTotal, lengths, List.map_append, List.map_singleton, List.sum_append,
          List.sum_singleton]
      · rw [hothers bucket hbucket, hrestTotal bucket hbucket]
    · have hrestTasks : (rest.map (·.agentId)).flatMap
          (Function.update tasksOf first.agentId (tasksOf first.agentId ++ [task])) =
          (rest.map (·.agentId)).flatMap tasksOf := by
        rw [List.flatMap_map, List.flatMap_map]
        exact List.flatMap_congr hothers
      have hbefore := hagents.flatMap_right tasksOf
      rw [List.flatMap_cons] at hbefore
      refine (hagents.symm.flatMap_right _).trans ?_
      rw [List.flatMap_cons, hself, hrestTasks, List.append_assoc]
      refine (List.perm_append_comm.append_left _).trans ?_
      rw [← List.append_assoc]
      exact (hbefore.trans hperm).append_right [task]
    · have hrestLengths : (rest.map (·.agentId)).map
          (fun agent => lengths (Function.update tasksOf first.agentId (tasksOf first.agentId ++ [task]) agent)) =
          (rest.map (·.agentId)).map fun agent => lengths (tasksOf agent) := by
        rw [List.map_map, List.map_map]
        exact List.map_congr_left fun bucket hbucket => congrArg lengths (hothers bucket hbucket)
      have hbefore := hagents.symm.map fun agent => lengths (tasksOf agent)
      have hafter := hagents.symm.map fun agent =>
        lengths (Function.update tasksOf first.agentId (tasksOf first.agentId ++ [task]) agent)
      rw [List.map_cons] at hbefore hafter
      rw [hrestLengths, hself] at hafter
      have hjobs : lengths (given ++ [task]) = lengths given ++ [task.estimatedDuration.nanos] := List.map_append
      have hload : lengths (tasksOf first.agentId ++ [task]) =
          lengths (tasksOf first.agentId) ++ [task.estimatedDuration.nanos] := List.map_append
      rw [hload] at hafter
      rw [hjobs]
      refine .snoc hloads hbefore (fun other hother => ?_) hafter
      obtain ⟨agent, hagent, rfl⟩ := List.mem_map.mp hother
      obtain ⟨bucket, hbucket, rfl⟩ := List.mem_map.mp hagent
      rw [← hfirstTotal, ← hrestTotal bucket hbucket]
      exact least_of_mergeSort horder bucket hbucket

/-- The loop gives out the rest of the tasks. -/
theorem Packed.foldlM {count : ℕ} {given tasks : List TaskTimingEstimate} {tasksOf : ℕ → List TaskTimingEstimate}
    {buckets buckets' : List AgentBucket} (h : Packed count given tasksOf buckets)
    (hrun : tasks.foldlM DteBinPacker.assign buckets = some buckets') :
    ∃ tasksOf', Packed count (given ++ tasks) tasksOf' buckets' := by
  induction tasks generalizing given tasksOf buckets with
  | nil =>
    rw [List.append_nil]
    exact ⟨tasksOf, Option.some.inj hrun ▸ h⟩
  | cons task tasks ih =>
    rw [List.foldlM_cons, Option.bind_eq_bind] at hrun
    obtain ⟨next, hnext, hrest⟩ := Option.bind_eq_some_iff.mp hrun
    obtain ⟨tasksOf', hpacked⟩ := h.assign hnext
    obtain ⟨tasksOf'', hall⟩ := ih hpacked hrest
    rw [List.append_assoc, List.singleton_append] at hall
    exact ⟨tasksOf'', hall⟩

/-- No agent has more work than there is in all. -/
theorem Packed.total_le {count : ℕ} {given : List TaskTimingEstimate} {tasksOf : ℕ → List TaskTimingEstimate}
    {buckets : List AgentBucket} (h : Packed count given tasksOf buckets) {bucket : AgentBucket}
    (hbucket : bucket ∈ buckets) : bucket.totalDuration.nanos ≤ (lengths given).sum := by
  have hagent : bucket.agentId ∈ List.range count := h.agents.mem_iff.mp (List.mem_map_of_mem hbucket)
  rw [h.totals bucket hbucket, ← h.loads.perm.1.sum_eq, List.sum_flatten]
  exact List.single_le_sum (fun _ _ => Nat.zero_le _) _
    (List.mem_map.mpr ⟨_, List.mem_map.mpr ⟨bucket.agentId, hagent, rfl⟩, rfl⟩)

/-- The loop panics only when the tasks are longer in all than the greatest duration. -/
theorem Packed.foldlM_none {count : ℕ} (hcount : 0 < count) {given tasks : List TaskTimingEstimate}
    {tasksOf : ℕ → List TaskTimingEstimate} {buckets : List AgentBucket} (h : Packed count given tasksOf buckets)
    (hrun : tasks.foldlM DteBinPacker.assign buckets = none) : durationLimit ≤ (lengths (given ++ tasks)).sum := by
  induction tasks generalizing given tasksOf buckets with
  | nil => exact absurd hrun (by simp)
  | cons task tasks ih =>
    rw [List.foldlM_cons, Option.bind_eq_bind] at hrun
    cases hnext : DteBinPacker.assign buckets task with
    | some next =>
      rw [hnext, Option.bind_some] at hrun
      obtain ⟨tasksOf', hpacked⟩ := h.assign hnext
      have hlater := ih hpacked hrun
      rw [List.append_assoc, List.singleton_append] at hlater
      exact hlater
    | none =>
      rw [DteBinPacker.assign] at hnext
      cases horder : buckets.mergeSort leastFirst with
      | nil =>
        have hperm := (List.mergeSort_perm buckets leastFirst).map (·.agentId)
        have hlength := (hperm.trans h.agents).length_eq
        rw [horder, List.map_nil, List.length_nil, List.length_range] at hlength
        omega
      | cons first rest =>
        rw [horder] at hnext
        have hfirst : first ∈ buckets := by
          rw [← @List.mem_mergeSort _ leastFirst, horder]
          exact List.mem_cons_self
        have hle := h.total_le hfirst
        have hover : durationLimit ≤ first.totalDuration.nanos + task.estimatedDuration.nanos := by
          have hfull := Option.map_eq_none_iff.mp hnext
          rw [Duration.checkedAdd] at hfull
          by_contra hlt
          rw [dif_pos (Nat.lt_of_not_le hlt)] at hfull
          exact absurd hfull (by simp)
        rw [lengths, List.map_append, List.map_cons, List.sum_append, List.sum_cons]
        rw [lengths] at hle
        omega

/-! ## The packing -/

/-- The work of the busiest agent, when the tasks are parted in a given way. -/
def makespan (parts : List (List TaskTimingEstimate)) : ℕ := (parts.map fun part => (lengths part).sum).max?.getD 0

/-- No agent has more work than the busiest one. -/
theorem sum_le_makespan {parts : List (List TaskTimingEstimate)} {part : List TaskTimingEstimate} (hpart : part ∈ parts) :
    (lengths part).sum ≤ makespan parts := by
  have hmem : (lengths part).sum ∈ parts.map fun part => (lengths part).sum := List.mem_map_of_mem hpart
  obtain ⟨greatest, hgreatest⟩ := Option.isSome_iff_exists.mp (List.isSome_max?_of_mem hmem)
  rw [makespan, hgreatest, Option.getD_some]
  exact (List.max?_eq_some_iff.mp hgreatest).2 _ hmem

/-- A good packing: the agents in order, every task given to one of them, the totals those of their tasks, and none
greater than `4/3 - 1/(3m)` times the work of the busiest agent under any other way to part the tasks. -/
structure Packs (tasks : List TaskTimingEstimate) (count : ℕ) (buckets : List AgentBucket) : Prop where
  agents : buckets.map (·.agentId) = List.range count
  ids : (buckets.flatMap (·.taskIds)).Perm (tasks.map (·.nodeId))
  totals : ∃ tasksOf : ℕ → List TaskTimingEstimate, ((List.range count).flatMap tasksOf).Perm tasks ∧
    ∀ bucket ∈ buckets, bucket.taskIds = (tasksOf bucket.agentId).map (·.nodeId) ∧
      bucket.totalDuration.nanos = (lengths (tasksOf bucket.agentId)).sum
  bounded : ∀ parts : List (List TaskTimingEstimate), parts.length = count → parts.flatten.Perm tasks →
    ∀ bucket ∈ buckets, (bucket.totalDuration.nanos : ℚ) ≤ (4 / 3 - 1 / (3 * count)) * makespan parts

/-- The longest tasks come first. -/
theorem longestFirst_sorted (tasks : List TaskTimingEstimate) : (lengths (longestFirst tasks)).Pairwise fun a b => b ≤ a := by
  have hsorted : (longestFirst tasks).Pairwise fun a b => b.estimatedDuration.nanos ≤ a.estimatedDuration.nanos :=
    pairwise_mergeSort_down (fun task : TaskTimingEstimate => task.estimatedDuration.nanos) tasks
  exact List.pairwise_map.mpr hsorted

/-- The bound on the loads, as a fraction. -/
theorem load_le_fraction {count total bound : ℕ} (hcount : 0 < count)
    (h : 3 * count * total ≤ (4 * count - 1) * bound) : (total : ℚ) ≤ (4 / 3 - 1 / (3 * count)) * bound := by
  have hpos : (0 : ℚ) < count := Nat.cast_pos.mpr hcount
  have hcast : ((3 * count * total : ℕ) : ℚ) ≤ ((4 * count - 1) * bound : ℕ) := Nat.cast_le.mpr h
  rw [Nat.cast_mul, Nat.cast_mul, Nat.cast_mul, Nat.cast_sub (by omega), Nat.cast_mul] at hcast
  push_cast at hcast
  have hfactor : (4 / 3 - 1 / (3 * count) : ℚ) = (4 * count - 1) / (3 * count) := by
    field_simp
  rw [hfactor, div_mul_eq_mul_div, le_div_iff₀ (by linarith)]
  linarith

/-- What the tasks are packed into, unless their lengths add up past the greatest duration, is a good packing. -/
theorem partitionTasks_packs (tasks : List TaskTimingEstimate) (agentCount : ℕ) :
    (partitionTasks tasks agentCount = none → durationLimit ≤ (lengths tasks).sum) ∧
      ∀ buckets, partitionTasks tasks agentCount = some buckets → Packs tasks (max agentCount 1) buckets := by
  have hcount : 0 < max agentCount 1 := Nat.lt_of_lt_of_le Nat.zero_lt_one (le_max_right _ _)
  have hstart := packed_emptyBuckets agentCount
  have hperm : (longestFirst tasks).Perm tasks := List.mergeSort_perm _ _
  constructor
  · intro hnone
    have hover := hstart.foldlM_none hcount (Option.map_eq_none_iff.mp hnone)
    have hsum : (lengths (longestFirst tasks)).sum = (lengths tasks).sum := (hperm.map _).sum_eq
    rwa [List.nil_append, hsum] at hover
  · intro buckets hsome
    obtain ⟨filled, hrun, rfl⟩ := Option.map_eq_some_iff.mp hsome
    obtain ⟨tasksOf, hpacked⟩ := hstart.foldlM hrun
    rw [List.nil_append] at hpacked
    have hall := hpacked.of_perm (List.mergeSort_perm filled fun a b => decide (a.agentId ≤ b.agentId))
    have hsorted : (filled.mergeSort fun a b => decide (a.agentId ≤ b.agentId)).Pairwise
        fun a b => a.agentId ≤ b.agentId := stableSort_pairwise (fun bucket : AgentBucket => bucket.agentId) filled
    generalize filled.mergeSort (fun a b => decide (a.agentId ≤ b.agentId)) = buckets at hall hsorted ⊢
    have hagents : buckets.map (·.agentId) = List.range (max agentCount 1) :=
      List.Perm.eq_of_pairwise (fun a b _ _ hab hba => Nat.le_antisymm hab hba) (List.pairwise_map.mpr hsorted)
        List.pairwise_le_range hall.agents
    refine ⟨hagents, ?_, ⟨tasksOf, hall.perm.trans hperm, fun bucket hbucket => ⟨hall.ids bucket hbucket,
      hall.totals bucket hbucket⟩⟩, fun parts hlength hparts bucket hbucket => ?_⟩
    · have hids : buckets.flatMap (·.taskIds) = ((buckets.map (·.agentId)).flatMap tasksOf).map (·.nodeId) := by
        rw [List.flatMap_map, List.map_flatMap]
        exact List.flatMap_congr hall.ids
      rw [hids, hagents]
      exact (hall.perm.trans hperm).map _
    · have hothers : (parts.map lengths).flatten.Perm (lengths (longestFirst tasks)) := by
        have hflatten : (parts.map lengths).flatten = lengths parts.flatten := by
          rw [lengths, List.map_flatten]
          rfl
        rw [hflatten]
        exact (hparts.trans hperm.symm).map _
      have hbound : ∀ other ∈ parts.map lengths, other.sum ≤ makespan parts := by
        intro other hother
        obtain ⟨part, hpart, rfl⟩ := List.mem_map.mp hother
        exact sum_le_makespan hpart
      have hload : lengths (tasksOf bucket.agentId) ∈
          (List.range (max agentCount 1)).map fun agent => lengths (tasksOf agent) :=
        List.mem_map.mpr ⟨bucket.agentId, hagents ▸ List.mem_map_of_mem hbucket, rfl⟩
      rw [hall.totals bucket hbucket]
      exact load_le_fraction hcount (hall.loads.load_le (longestFirst_sorted tasks) hothers
        (by rw [List.length_map]; exact hlength) hbound hload)

/-- A task that takes as long as can be told. -/
def longestTask (id : NodeId) : TaskTimingEstimate := ⟨id, "", ⟨durationLimit - 1, by decide⟩⟩

/-- Packing two tasks of the greatest duration for one agent panics. -/
theorem partitionTasks_longestTasks : partitionTasks [longestTask 0, longestTask 1] 1 = none := by
  simp [partitionTasks, longestFirst, List.mergeSort, List.MergeSort.Internal.splitInTwo, emptyBuckets, assign,
    Duration.checkedAdd, longestTask, Duration.zero, durationLimit]

/-- Two tasks of the greatest duration are not packed for one agent. -/
theorem not_packs_longestTasks :
    ¬ ∃ buckets, partitionTasks [longestTask 0, longestTask 1] 1 = some buckets ∧
      Packs [longestTask 0, longestTask 1] 1 buckets := by
  rintro ⟨buckets, hsome, -⟩
  rw [partitionTasks_longestTasks] at hsome
  exact absurd hsome (by simp)

end DteBinPacker

end Forge.Schedule
