import Forge.Common.Histories
import Forge.Common.LongestChains
import Mathlib.Algebra.Order.Ring.Nat
import Mathlib.Data.List.AList

/-!
# The critical path scheduler of the tool

A task weighs the greatest sum of costs along a path that starts at it. The cost of a task is
the average of its recorded durations, or a fixed one for a task without records. The weights
are found by a depth-first search that remembers its results and keeps the tasks that it is
still busy with, over all the tasks that are asked for. A task that is met while the search is
busy with it lies on a cycle.

The average is updated from its own rounded value, so what is lost by rounding stays lost.
-/

namespace Forge.Cli

open Relation Forge.Common

/-- Why there are no weights. -/
inductive CriticalPathError where
  | cycle (node : String)
deriving DecidableEq

/-- What was recorded of a task. -/
structure TaskHistoricalProfile where
  averageDurationMs : ℕ
  sampleCount : ℕ
deriving DecidableEq

/-- The recorded durations of all tasks. -/
structure CriticalPathScheduler where
  profiles : AList fun _ : String => TaskHistoricalProfile

/-- The tasks downstream of each task. -/
abbrev Adjacency := AList fun _ : String => List String

/-- The results that are remembered. -/
abbrev PathMemo := AList fun _ : String => ℕ

/-- What a search returns: nothing when it ran out of fuel, or an error, or its result with what it remembers and
the tasks it is busy with. -/
abbrev PathSearch := Option (Except CriticalPathError (ℕ × PathMemo × List String))

/-- The tasks right downstream of a task. -/
def neighbors (adjacency : Adjacency) (node : String) : List String := (adjacency.lookup node).getD []

/-- One more duration. -/
def TaskHistoricalProfile.record (entry : TaskHistoricalProfile) (durationMs : ℕ) : TaskHistoricalProfile :=
  let total := entry.averageDurationMs * entry.sampleCount + durationMs
  ⟨total / (entry.sampleCount + 1), entry.sampleCount + 1⟩

namespace CriticalPathScheduler

/-- No records. -/
def new : CriticalPathScheduler := ⟨∅⟩

/-- Record a duration of a task. -/
def recordTaskDuration (s : CriticalPathScheduler) (taskName : String) (durationMs : ℕ) : CriticalPathScheduler :=
  ⟨s.profiles.insert taskName (((s.profiles.lookup taskName).getD ⟨0, 0⟩).record durationMs)⟩

/-- The cost of a task. -/
def cost (s : CriticalPathScheduler) (name : String) : ℕ :=
  ((s.profiles.lookup name).map (·.averageDurationMs)).getD 100

/-- The greatest cost of a path through one of several neighbors. -/
def maxCost (s : CriticalPathScheduler) (visit : String → PathMemo → List String → PathSearch) :
    List String → ℕ → PathMemo → List String → PathSearch
  | [], max, memo, visiting => some (.ok (max, memo, visiting))
  | neighbor :: rest, max, memo, visiting =>
    match visit neighbor memo visiting with
    | none => none
    | some (.error e) => some (.error e)
    | some (.ok (found, memo, visiting)) =>
      let cost := s.cost neighbor + found
      maxCost s visit rest (if cost > max then cost else max) memo visiting

/-- The greatest cost of a path downstream of a task, without the task itself. -/
def longestDownstreamPath (s : CriticalPathScheduler) (adjacency : Adjacency) :
    ℕ → String → PathMemo → List String → PathSearch
  | 0, _, _, _ => none
  | fuel + 1, node, memo, visiting =>
    match memo.lookup node with
    | some cached => some (.ok (cached, memo, visiting))
    | none =>
      if node ∈ visiting then some (.error (.cycle node))
      else
        match maxCost s (longestDownstreamPath s adjacency fuel) (neighbors adjacency node) 0 memo (node :: visiting) with
        | none => none
        | some (.error e) => some (.error e)
        | some (.ok (max, memo, visiting)) => some (.ok (max, memo.insert node max, visiting.erase node))

/-- The weights of the tasks, one task after another. -/
def weightsFrom (s : CriticalPathScheduler) (adjacency : Adjacency) (fuel : ℕ) :
    List String → PathMemo → PathMemo → List String → Option (Except CriticalPathError PathMemo)
  | [], weights, _, _ => some (.ok weights)
  | name :: names, weights, memo, visiting =>
    match longestDownstreamPath s adjacency fuel name memo visiting with
    | none => none
    | some (.error e) => some (.error e)
    | some (.ok (downstream, memo, visiting)) =>
      weightsFrom s adjacency fuel names (weights.insert name (s.cost name + downstream)) memo visiting

/-- The weights of the tasks. The search goes through a task with neighbors only once at a time, which bounds its depth. -/
def computeCriticalWeights (s : CriticalPathScheduler) (taskNames : List String) (adjacency : Adjacency) :
    Option (Except CriticalPathError PathMemo) :=
  weightsFrom s adjacency (adjacency.keys.length + 1) taskNames ∅ ∅ []

end CriticalPathScheduler

/-! ### The search -/

/-- One task is right downstream of another. -/
def Below (adjacency : Adjacency) (a b : String) : Prop := a ∈ neighbors adjacency b

/-- A task from which a cycle is reached. -/
def ReachesCycle (adjacency : Adjacency) (node : String) : Prop :=
  ∃ c, ReflTransGen (Below adjacency) c node ∧ TransGen (Below adjacency) c c

section Search

variable {s : CriticalPathScheduler} {adjacency : Adjacency}

/-- What is found for a task is the greatest cost downstream of it, and it does not reach a cycle. -/
def Found (s : CriticalPathScheduler) (adjacency : Adjacency) (node : String) (downstream : ℕ) : Prop :=
  (∃ path, Heaviest (Below adjacency) s.cost node (downstream + s.cost node, path)) ∧ Acc (Below adjacency) node

/-- What is remembered is right. -/
def Remembers (s : CriticalPathScheduler) (adjacency : Adjacency) (memo : PathMemo) : Prop :=
  ∀ node downstream, memo.lookup node = some downstream → Found s adjacency node downstream

/-- A search meets a cycle that is reached, or it comes back with what it was to find. -/
def Outcome (s : CriticalPathScheduler) (adjacency : Adjacency) (visiting : List String) (cyclic : Prop)
    (good : ℕ → Prop) (result : PathSearch) : Prop :=
  (∃ e, result = some (.error e) ∧ cyclic) ∨
    ∃ found memo, result = some (.ok (found, memo, visiting)) ∧ Remembers s adjacency memo ∧ good found

/-- Nothing is remembered wrongly at the start. -/
theorem remembers_empty : Remembers s adjacency ∅ := by
  intro node downstream hfound
  rw [AList.lookup_empty] at hfound
  cases hfound

/-- Remembering one more right result. -/
theorem Remembers.insert {memo : PathMemo} (h : Remembers s adjacency memo) {node : String} {downstream : ℕ}
    (hfound : Found s adjacency node downstream) : Remembers s adjacency (memo.insert node downstream) := by
  intro other found hother
  by_cases heq : other = node
  · subst heq
    rw [AList.lookup_insert, Option.some.injEq] at hother
    exact hother ▸ hfound
  · rw [AList.lookup_insert_ne heq] at hother
    exact h other found hother

/-- A task downstream of which a cycle is reached reaches it too. -/
theorem ReachesCycle.of_below {a b : String} (h : ReachesCycle adjacency a) (hab : Below adjacency a b) :
    ReachesCycle adjacency b := by
  obtain ⟨c, hpath, hcycle⟩ := h
  exact ⟨c, hpath.tail hab, hcycle⟩

/-- The search along several neighbors finds the greatest cost of a path that starts at one of them. -/
theorem maxCost_outcome {visiting : List String} {visit : String → PathMemo → List String → PathSearch}
    {names : List String} {cyclic : Prop}
    (hvisit : ∀ neighbor ∈ names, ∀ memo, Remembers s adjacency memo →
      Outcome s adjacency visiting cyclic (Found s adjacency neighbor) (visit neighbor memo visiting))
    {before : List String} {max : ℕ} {path : List String} {memo : PathMemo} (hmemo : Remembers s adjacency memo)
    (hmax : HeaviestAmong (Below adjacency) s.cost before (max, path))
    (hbefore : ∀ node ∈ before, Acc (Below adjacency) node) :
    Outcome s adjacency visiting cyclic
      (fun found => (∃ path, HeaviestAmong (Below adjacency) s.cost (before ++ names) (found, path)) ∧
        ∀ node ∈ before ++ names, Acc (Below adjacency) node)
      (s.maxCost visit names max memo visiting) := by
  induction names generalizing before max path memo with
  | nil =>
    rw [List.append_nil]
    exact .inr ⟨max, memo, rfl, hmemo, ⟨path, hmax⟩, hbefore⟩
  | cons neighbor names ih =>
    obtain ⟨hfirst, hrest⟩ := List.forall_mem_cons.mp hvisit
    obtain ⟨e, heq, hcycle⟩ | ⟨found, memo', heq, hmemo', ⟨⟨chain, hchain⟩, hacc⟩⟩ := hfirst memo hmemo
    · exact .inl ⟨e, by rw [CriticalPathScheduler.maxCost, heq], hcycle⟩
    · have haccs : ∀ node ∈ before ++ [neighbor], Acc (Below adjacency) node := by
        intro node hnode
        obtain hnode | hnode := List.mem_append.mp hnode
        · exact hbefore node hnode
        · exact List.mem_singleton.mp hnode ▸ hacc
      have hnext := hmax.concat hchain
      have hcompared : (if max < found + s.cost neighbor then (found + s.cost neighbor, chain) else (max, path)) =
          (if s.cost neighbor + found > max then s.cost neighbor + found else max,
            if s.cost neighbor + found > max then chain else path) := by
        rw [Nat.add_comm found]
        split <;> rfl
      simp only [hcompared] at hnext
      have hlater := ih hrest hmemo' hnext haccs
      rw [List.append_assoc, List.singleton_append] at hlater
      rw [CriticalPathScheduler.maxCost, heq]
      exact hlater

/-- A task with a neighbor is in the table. -/
theorem mem_keys_of_mem_neighbors {node neighbor : String} (h : neighbor ∈ neighbors adjacency node) :
    node ∈ adjacency.keys := by
  unfold neighbors at h
  cases hlookup : adjacency.lookup node with
  | none =>
    rw [hlookup] at h
    exact absurd h List.not_mem_nil
  | some list => exact AList.lookup_isSome.mp (Option.isSome_of_eq_some hlookup)

/-- The search from a task that leads to all tasks it is busy with finds the greatest cost downstream, or a cycle. -/
theorem longestDownstreamPath_outcome (fuel : ℕ) (node : String) (memo : PathMemo) (visiting : List String)
    (hmemo : Remembers s adjacency memo) (hvisiting : ∀ v ∈ visiting, TransGen (Below adjacency) node v)
    (hfuel : (adjacency.keys.filter (· ∉ visiting)).length < fuel) :
    Outcome s adjacency visiting (ReachesCycle adjacency node) (Found s adjacency node)
      (s.longestDownstreamPath adjacency fuel node memo visiting) := by
  induction fuel generalizing node memo visiting with
  | zero => exact absurd hfuel (Nat.not_lt_zero _)
  | succ fuel ih =>
    rw [CriticalPathScheduler.longestDownstreamPath]
    cases hcached : memo.lookup node with
    | some cached => exact .inr ⟨cached, memo, rfl, hmemo, hmemo node cached hcached⟩
    | none =>
      by_cases hbusy : node ∈ visiting
      · exact .inl ⟨.cycle node, by rw [if_pos hbusy], node, .refl, hvisiting node hbusy⟩
      · simp only [if_neg hbusy]
        have hvisit : ∀ neighbor ∈ neighbors adjacency node, ∀ memo, Remembers s adjacency memo →
            Outcome s adjacency (node :: visiting) (ReachesCycle adjacency node) (Found s adjacency neighbor)
              (s.longestDownstreamPath adjacency fuel neighbor memo (node :: visiting)) := by
          intro neighbor hneighbor memo' hmemo'
          have hless := length_filter_notMem_lt (mem_keys_of_mem_neighbors hneighbor) hbusy
          have hbelow : ∀ v ∈ node :: visiting, TransGen (Below adjacency) neighbor v :=
            List.forall_mem_cons.mpr ⟨.single hneighbor, fun v hv => .head hneighbor (hvisiting v hv)⟩
          obtain ⟨e, heq, hcycle⟩ | hok := ih neighbor memo' (node :: visiting) hmemo' hbelow (by omega)
          · exact .inl ⟨e, heq, hcycle.of_below hneighbor⟩
          · exact .inr hok
        have hall := maxCost_outcome hvisit hmemo (HeaviestAmong.nil (Below adjacency) s.cost)
          fun node hnode => absurd hnode List.not_mem_nil
        rw [List.nil_append] at hall
        obtain ⟨e, heq, hcycle⟩ | ⟨max, memo', heq, hmemo', ⟨path, hmax⟩, haccs⟩ := hall
        · exact .inl ⟨e, by simp only [heq], hcycle⟩
        · have hfound : Found s adjacency node max := ⟨⟨_, hmax.snoc fun a => Iff.rfl⟩, Acc.intro node haccs⟩
          refine .inr ⟨max, memo'.insert node max, ?_, hmemo'.insert hfound, hfound⟩
          simp only [heq, List.erase_cons_head]

/-- The weights so far are the greatest costs of paths that start at their tasks. -/
def Weighs (s : CriticalPathScheduler) (adjacency : Adjacency) (weights : PathMemo) : Prop :=
  ∀ name weight, weights.lookup name = some weight →
    (∃ path, Heaviest (Below adjacency) s.cost name (weight, path)) ∧ Acc (Below adjacency) name

/-- The weights of several tasks are found, or one of the tasks reaches a cycle. -/
theorem weightsFrom_outcome {fuel : ℕ} (hfuel : adjacency.keys.length < fuel) {names : List String}
    {weights memo : PathMemo} (hweights : Weighs s adjacency weights) (hmemo : Remembers s adjacency memo) :
    (∃ e, s.weightsFrom adjacency fuel names weights memo [] = some (.error e) ∧
        ∃ name ∈ names, ReachesCycle adjacency name) ∨
      ∃ found, s.weightsFrom adjacency fuel names weights memo [] = some (.ok found) ∧
        Weighs s adjacency found ∧ ∀ name, name ∈ weights ∨ name ∈ names → name ∈ found := by
  induction names generalizing weights memo with
  | nil => exact .inr ⟨weights, rfl, hweights, fun name hname => hname.resolve_right List.not_mem_nil⟩
  | cons name names ih =>
    have hsearch := longestDownstreamPath_outcome fuel name memo [] hmemo (fun v hv => absurd hv List.not_mem_nil)
      ((List.length_filter_le _ _).trans_lt hfuel)
    rw [CriticalPathScheduler.weightsFrom]
    obtain ⟨e, heq, hcycle⟩ | ⟨downstream, memo', heq, hmemo', hfound⟩ := hsearch
    · exact .inl ⟨e, by rw [heq], name, List.mem_cons_self, hcycle⟩
    · rw [heq]
      simp only
      have hnext : Weighs s adjacency (weights.insert name (s.cost name + downstream)) := by
        intro other weight hother
        by_cases hself : other = name
        · subst hself
          rw [AList.lookup_insert, Option.some.injEq, Nat.add_comm] at hother
          exact hother ▸ hfound
        · rw [AList.lookup_insert_ne hself] at hother
          exact hweights other weight hother
      obtain ⟨e, heq', other, hother, hcycle⟩ | ⟨found, heq', hall, hcovers⟩ := ih hnext hmemo'
      · exact .inl ⟨e, heq', other, List.mem_cons_of_mem _ hother, hcycle⟩
      · refine .inr ⟨found, heq', hall, fun other hother => hcovers other ?_⟩
        rw [AList.mem_insert]
        obtain hold | hlisted := hother
        · exact .inl (.inr hold)
        · exact (List.mem_cons.mp hlisted).imp_left Or.inl

end Search

/-! ### The weights -/

/-- One task is right upstream of another. -/
def Downstream (adjacency : Adjacency) (a b : String) : Prop := b ∈ neighbors adjacency a

/-- The costs of the paths that start at a task. -/
def pathCosts (s : CriticalPathScheduler) (adjacency : Adjacency) (name : String) : Set ℕ :=
  {n | ∃ path : List String, path.IsChain (Downstream adjacency) ∧ path.head? = some name ∧ (path.map s.cost).sum = n}

/-- The result is an error if a task reaches a cycle, and else each task has the greatest cost of a path that starts at it. -/
def WeightsExact (s : CriticalPathScheduler) (taskNames : List String) (adjacency : Adjacency)
    (result : Except CriticalPathError PathMemo) : Prop :=
  ((∃ node, result = .error (.cycle node)) ↔ ∃ name ∈ taskNames, ∃ c,
      ReflTransGen (Downstream adjacency) name c ∧ TransGen (Downstream adjacency) c c) ∧
    ∀ weights, result = .ok weights → ∀ name ∈ taskNames,
      ∃ weight, weights.lookup name = some weight ∧ IsGreatest (pathCosts s adjacency name) weight

/-- Reaching a cycle, read downstream. -/
theorem reachesCycle_iff {adjacency : Adjacency} {name : String} :
    ReachesCycle adjacency name ↔
      ∃ c, ReflTransGen (Downstream adjacency) name c ∧ TransGen (Downstream adjacency) c c :=
  exists_congr fun _ => and_congr reflTransGen_swap transGen_swap

/-- A chain that ends at a task is a path that starts at it, read backwards. -/
theorem mem_pathCosts_iff {s : CriticalPathScheduler} {adjacency : Adjacency} {name : String} {n : ℕ} :
    n ∈ pathCosts s adjacency name ↔ ∃ l, ChainTo (Below adjacency) name l ∧ weightOf s.cost l = n := by
  have hreverse (l : List String) : (l.IsChain (Below adjacency) ∧ l.getLast? = some name ∧ weightOf s.cost l = n) ↔
      l.reverse.IsChain (Downstream adjacency) ∧ l.reverse.head? = some name ∧ (l.reverse.map s.cost).sum = n := by
    rw [List.isChain_reverse, List.head?_reverse, List.map_reverse, List.sum_reverse]
    rfl
  constructor
  · rintro ⟨path, hpath⟩
    refine ⟨path.reverse, ?_⟩
    rw [chainTo_iff, and_assoc, hreverse, List.reverse_reverse]
    exact hpath
  · rintro ⟨l, hl⟩
    rw [chainTo_iff, and_assoc, hreverse] at hl
    exact ⟨l.reverse, hl⟩

/-- A heaviest chain gives the greatest cost. -/
theorem isGreatest_pathCosts {s : CriticalPathScheduler} {adjacency : Adjacency} {name : String} {weight : ℕ}
    {path : List String} (h : Heaviest (Below adjacency) s.cost name (weight, path)) :
    IsGreatest (pathCosts s adjacency name) weight := by
  refine ⟨mem_pathCosts_iff.mpr ⟨path, h.chain, h.weight⟩, fun n hn => ?_⟩
  obtain ⟨l, hl, rfl⟩ := mem_pathCosts_iff.mp hn
  exact h.greatest l hl

/-- The computation returns, with exact weights. -/
theorem computeCriticalWeights_exact (s : CriticalPathScheduler) (taskNames : List String) (adjacency : Adjacency) :
    ∃ result, s.computeCriticalWeights taskNames adjacency = some result ∧
      WeightsExact s taskNames adjacency result := by
  have hempty : Weighs s adjacency ∅ := by
    intro name weight hlookup
    rw [AList.lookup_empty] at hlookup
    cases hlookup
  obtain ⟨e, heq, name, hname, hcycle⟩ | ⟨found, heq, hfound, hcovers⟩ :=
    @weightsFrom_outcome s adjacency _ (Nat.lt_succ_self _) taskNames _ _ hempty remembers_empty
  · refine ⟨.error e, heq, iff_of_true ?_ ⟨name, hname, reachesCycle_iff.mp hcycle⟩, nofun⟩
    cases e with
    | cycle node => exact ⟨node, rfl⟩
  · have hright : ∀ name ∈ taskNames, ∃ weight, found.lookup name = some weight := fun name hname =>
      Option.isSome_iff_exists.mp (AList.lookup_isSome.mpr (hcovers name (.inr hname)))
    refine ⟨.ok found, heq, iff_of_false nofun ?_, fun weights hweights name hname => ?_⟩
    · rintro ⟨name, hname, hcycle⟩
      obtain ⟨weight, hlookup⟩ := hright name hname
      obtain ⟨c, hpath, hself⟩ := reachesCycle_iff.mpr hcycle
      exact not_transGen_self_of_acc (hfound name weight hlookup).2 hpath hself
    · cases hweights
      obtain ⟨weight, hlookup⟩ := hright name hname
      obtain ⟨⟨path, hheaviest⟩, -⟩ := hfound name weight hlookup
      exact ⟨weight, hlookup, isGreatest_pathCosts hheaviest⟩

/-! ### The averages -/

/-- A scheduler after records. -/
def CriticalPathScheduler.recordAll (s : CriticalPathScheduler) (records : List (String × ℕ)) : CriticalPathScheduler :=
  records.foldl (fun s record => s.recordTaskDuration record.1 record.2) s

/-- The durations that were recorded of a task. -/
def durationsOf (task : String) (records : List (String × ℕ)) : List ℕ :=
  (records.filter (·.1 = task)).map (·.2)

/-- At every time the cost of every task with records is the mean of its durations, rounded down. -/
def AveragesExact (records : List (String × ℕ)) : Prop :=
  ∀ before, before <+: records → ∀ task, durationsOf task before ≠ [] →
    (CriticalPathScheduler.new.recordAll before).cost task =
      (durationsOf task before).sum / (durationsOf task before).length

/-- What is left over when the sum of the durations is divided by their number never becomes less. -/
def RemaindersGrow (durations : List ℕ) : Prop :=
  ∀ before d, before ++ [d] <+: durations →
    before.sum % before.length ≤ (before ++ [d]).sum % (before ++ [d]).length

/-- The profile of the durations of one task. -/
def profileOf (durations : List ℕ) : TaskHistoricalProfile := durations.foldl TaskHistoricalProfile.record ⟨0, 0⟩

/-- One more duration in a profile. -/
theorem profileOf_concat (durations : List ℕ) (d : ℕ) : profileOf (durations ++ [d]) = (profileOf durations).record d :=
  List.foldl_concat _ _ _ _

/-- A profile counts its durations. -/
theorem profileOf_sampleCount (durations : List ℕ) : (profileOf durations).sampleCount = durations.length := by
  induction durations using List.reverseRecOn with
  | nil => rfl
  | append_singleton durations d ih =>
    rw [profileOf_concat, TaskHistoricalProfile.record, List.length_append, ih]
    rfl

/-- The durations of a task after one more record. -/
theorem durationsOf_concat (task : String) (records : List (String × ℕ)) (record : String × ℕ) :
    durationsOf task (records ++ [record]) =
      if record.1 = task then durationsOf task records ++ [record.2] else durationsOf task records := by
  unfold durationsOf
  rw [List.filter_append, List.map_append, List.filter_singleton]
  split <;> simp_all

/-- A task's profile is that of its durations, and there is none without records. -/
theorem lookup_recordAll (task : String) (records : List (String × ℕ)) :
    (CriticalPathScheduler.new.recordAll records).profiles.lookup task =
      if durationsOf task records = [] then none else some (profileOf (durationsOf task records)) := by
  induction records using List.reverseRecOn generalizing task with
  | nil => exact AList.lookup_empty task
  | append_singleton records record ih =>
    have hlast : CriticalPathScheduler.new.recordAll (records ++ [record]) =
        (CriticalPathScheduler.new.recordAll records).recordTaskDuration record.1 record.2 := List.foldl_concat _ _ _ _
    rw [hlast, CriticalPathScheduler.recordTaskDuration, durationsOf_concat]
    by_cases hself : record.1 = task
    · subst hself
      rw [AList.lookup_insert, if_pos rfl, if_neg (List.append_ne_nil_of_right_ne_nil _ (List.cons_ne_nil _ _)),
        profileOf_concat, ih]
      by_cases hfirst : durationsOf record.1 records = []
      · rw [if_pos hfirst, hfirst]
        rfl
      · rw [if_neg hfirst]
        rfl
    · rw [AList.lookup_insert_ne (Ne.symm hself), if_neg hself]
      exact ih task

/-- The cost of a task with records is its average. -/
theorem cost_recordAll {task : String} {records : List (String × ℕ)} (h : durationsOf task records ≠ []) :
    (CriticalPathScheduler.new.recordAll records).cost task =
      (profileOf (durationsOf task records)).averageDurationMs := by
  rw [CriticalPathScheduler.cost, lookup_recordAll, if_neg h]
  rfl

/-- After an exact average the next one is exact if the remainder did not become less. -/
theorem average_concat_iff {durations : List ℕ} {d : ℕ}
    (h : (profileOf durations).averageDurationMs = durations.sum / durations.length) :
    (profileOf (durations ++ [d])).averageDurationMs = (durations ++ [d]).sum / (durations ++ [d]).length ↔
      durations.sum % durations.length ≤ (durations ++ [d]).sum % (durations ++ [d]).length := by
  rw [profileOf_concat, TaskHistoricalProfile.record, h, profileOf_sampleCount, List.length_append,
    List.length_singleton, List.sum_append, List.sum_singleton]
  simp only
  generalize durations.sum = sum
  generalize durations.length = n
  -- The sum that the average stands for lacks the remainder of the last division.
  have hlost : sum / n * n + sum % n = sum := Nat.div_add_mod' sum n
  have hdiv : (sum + d) / (n + 1) * (n + 1) + (sum + d) % (n + 1) = sum + d := Nat.div_add_mod' _ _
  have hless : (sum + d) % (n + 1) < n + 1 := Nat.mod_lt _ (Nat.add_one_pos n)
  rw [Nat.div_eq_iff (Nat.add_one_pos n)]
  constructor
  · intro hbound
    omega
  · intro hbound
    omega

/-- The averages of the durations of one task are exact at every time if the remainders grow. -/
theorem averages_exact_iff (durations : List ℕ) :
    (∀ before, before <+: durations → (profileOf before).averageDurationMs = before.sum / before.length) ↔
      RemaindersGrow durations := by
  apply forall_prefix_iff_steps fun before : List ℕ => (profileOf before).averageDurationMs = before.sum / before.length
  · rfl
  · intro before d h hgrows
    exact (average_concat_iff h).mpr hgrows
  · exact fun _ h => h
  · intro before d h hexact
    exact (average_concat_iff h).mp hexact

/-- The beginnings of a task's durations are its durations in beginnings of the records. -/
theorem prefix_durationsOf_iff {task : String} {records : List (String × ℕ)} {durations : List ℕ} :
    durations <+: durationsOf task records ↔ ∃ before, before <+: records ∧ durationsOf task before = durations := by
  constructor
  · rintro ⟨rest, hrest⟩
    obtain ⟨first, second, hsplit, hfirst, -⟩ := List.map_eq_append_iff.mp hrest.symm
    obtain ⟨before, after, rfl, hbefore, -⟩ := List.filter_eq_append_iff.mp hsplit
    refine ⟨before, List.prefix_append before after, ?_⟩
    rw [durationsOf, hbefore, hfirst]
  · rintro ⟨before, ⟨after, rfl⟩, rfl⟩
    refine ⟨durationsOf task after, ?_⟩
    unfold durationsOf
    rw [List.filter_append, List.map_append]

/-- The averages of all tasks are exact at every time if the remainders of each task grow. -/
theorem averagesExact_iff (records : List (String × ℕ)) :
    AveragesExact records ↔ ∀ task, RemaindersGrow (durationsOf task records) := by
  simp only [← averages_exact_iff, prefix_durationsOf_iff]
  constructor
  · rintro h task durations ⟨before, hbefore, rfl⟩
    by_cases hnone : durationsOf task before = []
    · rw [hnone]
      rfl
    · rw [← cost_recordAll hnone]
      exact h before hbefore task hnone
  · intro h before hbefore task hsome
    rw [cost_recordAll hsome]
    exact h task _ ⟨before, hbefore, rfl⟩

/-- The weights are exact for every table of profiles, and the averages in it are exact if and
only if the remainders of the durations of each task never become less. -/
theorem criticalPathScheduler_exact_iff (s : CriticalPathScheduler) (taskNames : List String) (adjacency : Adjacency)
    (records : List (String × ℕ)) :
    (∃ result, s.computeCriticalWeights taskNames adjacency = some result ∧
        WeightsExact s taskNames adjacency result) ∧
      (AveragesExact records ↔ ∀ task, RemaindersGrow (durationsOf task records)) :=
  ⟨computeCriticalWeights_exact s taskNames adjacency, averagesExact_iff records⟩

/-- The durations 1, 2 and 3 are averaged to 1. -/
theorem not_averagesExact : ¬ ∀ records, AveragesExact records := by
  intro h
  have hmean := h [("a", 1), ("a", 2), ("a", 3)] _ (List.prefix_refl _) "a" (by decide)
  exact absurd hmean (by decide)

end Forge.Cli
