import Forge.Common.KeySort
import Forge.Executor.Task
import Forge.Schedule.BinPacking
import Mathlib.Data.List.AList
import Mathlib.Data.List.Rotate
import Mathlib.Data.Prod.Lex

/-!
# A cluster of workers

A task goes to the workers of a cluster one after the other until one of them answers. The order is the
strategy's, except that workers that failed often and lately come last. When no worker answers, the task is
run locally, if the cluster has a local executor to fall back on.
-/

namespace Forge.Worker

open Forge.Common
open Forge.Executor (Task TaskOutcome)
open Forge.Schedule (Duration)

/-- How the order of the workers is found. -/
inductive LoadBalancingStrategy where
  | roundRobin
  | leastLoaded
  | random
  deriving DecidableEq, Repr

/-- What kind of error the system reports. -/
inductive SpawnErrorKind where
  | notFound
  | connectionRefused
  | other
  deriving DecidableEq, Repr

/-- Why a task was not executed. -/
inductive ExecutorError where
  | spawn (command : String) (kind : SpawnErrorKind) (source : String)
  | record (command : String) (source : String)
  deriving DecidableEq, Repr

/-- How often each address failed since it last answered, and when it did so last. Times are nanoseconds of
a clock that only goes forward. -/
structure WorkerCircuitBreaker where
  failureCounts : AList fun _ : String => ℕ × ℕ
  failureThreshold : ℕ
  cooldown : Duration

namespace WorkerCircuitBreaker

/-- Count a failure. The count stays at the largest number. -/
def recordFailure (b : WorkerCircuitBreaker) (addr : String) (now : ℕ) : WorkerCircuitBreaker :=
  let (count, _) := (b.failureCounts.lookup addr).getD (0, now)
  { b with failureCounts := b.failureCounts.insert addr (min (count + 1) (2 ^ 64 - 1), now) }

/-- Forget the failures of an address. -/
def recordSuccess (b : WorkerCircuitBreaker) (addr : String) : WorkerCircuitBreaker :=
  { b with failureCounts := b.failureCounts.erase addr }

/-- Whether an address failed often and lately. -/
def isDegraded (b : WorkerCircuitBreaker) (now : ℕ) (addr : String) : Bool :=
  match b.failureCounts.lookup addr with
  | some (count, lastFailure) => b.failureThreshold ≤ count && now - lastFailure < b.cooldown.nanos
  | none => false

/-- How often an address failed. -/
def failureCount (b : WorkerCircuitBreaker) (addr : String) : ℕ :=
  ((b.failureCounts.lookup addr).map Prod.fst).getD 0

/-- The circuit breaker of a new cluster: three failures, and ten seconds. -/
def default : WorkerCircuitBreaker := ⟨∅, 3, ⟨10 * 10 ^ 9, by decide⟩⟩

end WorkerCircuitBreaker

/-- The client of a worker. -/
structure RemoteWorkerClient where
  serverAddr : String
  deriving DecidableEq, Repr

/-- A cluster. It falls back on a local executor exactly if it was built with one. -/
structure ClusterExecutor where
  workers : List RemoteWorkerClient
  localExecutor : Option (Task → Except ExecutorError TaskOutcome)
  roundRobinIdx : UInt64
  randomSeed : UInt64
  failoverToLocal : Bool
  strategy : LoadBalancingStrategy
  circuitBreaker : WorkerCircuitBreaker
  failover_iff : failoverToLocal = localExecutor.isSome

/-- What the workers answer: how many jobs are active, if a worker answers at all, and what becomes of a task;
and when the order is found and when a worker has failed. -/
structure Network where
  ping : ℕ → Option ℕ
  execute : ℕ → Task → Except ExecutorError TaskOutcome
  now : ℕ
  failedAt : ℕ → ℕ

/-- What the cluster does for a task. -/
inductive ClusterEvent where
  | attempt (worker : ℕ)
  | failure (worker : ℕ)
  | success (worker : ℕ)
  | runLocal
  deriving DecidableEq, Repr

/-- The worker that is tried. -/
def ClusterEvent.worker? : ClusterEvent → Option ℕ
  | .attempt idx => some idx
  | _ => none

namespace ClusterExecutor

/-- A new cluster with a local executor. -/
def withLocalFallback (workers : List RemoteWorkerClient) (run : Task → Except ExecutorError TaskOutcome) :
    ClusterExecutor :=
  ⟨workers, some run, 0, 123456789, true, .roundRobin, .default, rfl⟩

/-- A new cluster without. -/
def withoutFallback (workers : List RemoteWorkerClient) : ClusterExecutor :=
  ⟨workers, none, 0, 123456789, false, .roundRobin, .default, rfl⟩

/-- The address of a worker. -/
def addr (c : ClusterExecutor) (idx : ℕ) : String := ((c.workers[idx]?).map RemoteWorkerClient.serverAddr).getD ""

/-- A pseudorandom number below a bound, with the next seed. -/
def nextRandomIndex (seed : UInt64) (max : ℕ) : ℕ × UInt64 :=
  if max ≤ 1 then (0, seed)
  else
    let x := seed ^^^ (seed >>> 30)
    let x := x * 0xBF58476D1CE4E5B9
    let x := x ^^^ (x >>> 27)
    let x := x * 0x94D049BB133111EB
    let x := x ^^^ (x >>> 31)
    (x.toNat % max, seed + 0x9E3779B97F4A7C15)

/-- All indices, from one of them on. -/
def fromStart (start total : ℕ) : List ℕ := (List.range total).map fun offset => (start + offset) % total

/-- The failures and the load of a worker. One that does not answer counts as very busy. -/
def leastLoadedKey (c : ClusterExecutor) (network : Network) (idx : ℕ) : ℕ ×ₗ ℕ :=
  toLex (c.circuitBreaker.failureCount (c.addr idx), (network.ping idx).getD ((2 ^ 64 - 1) / 2))

/-- The order of the strategy, with the counters afterwards. -/
def strategyOrder (c : ClusterExecutor) (network : Network) : List ℕ × ClusterExecutor :=
  let total := c.workers.length
  match c.strategy with
  | .roundRobin =>
    (fromStart (c.roundRobinIdx.toNat % total) total, { c with roundRobinIdx := c.roundRobinIdx + 1 })
  | .leastLoaded => (stableSort (c.leastLoadedKey network) (List.range total), c)
  | .random =>
    let (start, seed) := nextRandomIndex c.randomSeed total
    (fromStart start total, { c with randomSeed := seed })

/-- Workers that failed often and lately come behind the others. -/
def degradedKey (c : ClusterExecutor) (network : Network) (idx : ℕ) : ℕ :=
  if c.circuitBreaker.isDegraded network.now (c.addr idx) then 1 else 0

/-- The order in which the workers are tried, with the counters afterwards. -/
def selectCandidateIndices (c : ClusterExecutor) (network : Network) : List ℕ × ClusterExecutor :=
  if c.workers.length = 0 then ([], c)
  else
    let (indices, next) := c.strategyOrder network
    (stableSort (c.degradedKey network) indices, next)

/-- Try workers until one answers. The answer is missing if all failed and there is a local executor to
fall back on. -/
def tryWorkers (c : ClusterExecutor) (network : Network) (task : Task) (total : ℕ) :
    List ℕ → ℕ → WorkerCircuitBreaker →
      Option (Except ExecutorError TaskOutcome) × List ClusterEvent × WorkerCircuitBreaker
  | [], _, breaker => (none, [], breaker)
  | idx :: rest, attempt, breaker =>
    match network.execute idx task with
    | .ok outcome => (some (.ok outcome), [.attempt idx, .success idx], breaker.recordSuccess (c.addr idx))
    | .error e =>
      let breaker := breaker.recordFailure (c.addr idx) (network.failedAt idx)
      if attempt + 1 = total ∧ c.failoverToLocal = false then
        (some (.error e), [.attempt idx, .failure idx], breaker)
      else
        let (answer, events, breaker) := tryWorkers c network task total rest (attempt + 1) breaker
        (answer, .attempt idx :: .failure idx :: events, breaker)

/-- Execute a task. -/
def execute (c : ClusterExecutor) (network : Network) (task : Task) :
    Except ExecutorError TaskOutcome × List ClusterEvent × ClusterExecutor :=
  if c.workers = [] then
    match c.localExecutor with
    | some run => (run task, [.runLocal], c)
    | none =>
      (.error (.spawn task.label .notFound "no remote workers configured and no local fallback"), [], c)
  else
    let (candidates, c) := c.selectCandidateIndices network
    let (answer, events, breaker) := tryWorkers c network task candidates.length candidates 0 c.circuitBreaker
    let c := { c with circuitBreaker := breaker }
    match answer with
    | some answer => (answer, events, c)
    | none =>
      match c.localExecutor with
      | some run =>
        if c.failoverToLocal then (run task, events ++ [.runLocal], c)
        else
          (.error (.spawn task.label .connectionRefused "all remote workers failed and local fallback unavailable"),
            events, c)
      | none =>
        (.error (.spawn task.label .connectionRefused "all remote workers failed and local fallback unavailable"),
          events, c)

/-! ## The order of the workers -/

/-- All indices from one on are all indices. -/
theorem fromStart_perm (start total : ℕ) : (fromStart start total).Perm (List.range total) := by
  have hrotate : fromStart start total = (List.range total).rotate start := by
    refine List.ext_getElem ?_ fun k _ _ => ?_
    · rw [fromStart, List.length_map, List.length_rotate]
    · simp only [fromStart, List.getElem_map, List.getElem_range, List.getElem_rotate, List.length_range]
      rw [Nat.add_comm]
  rw [hrotate]
  exact List.rotate_perm _ _

/-- The order of a strategy has every worker once. -/
theorem strategyOrder_perm (c : ClusterExecutor) (network : Network) :
    (c.strategyOrder network).1.Perm (List.range c.workers.length) := by
  rw [strategyOrder]
  cases c.strategy with
  | roundRobin => exact fromStart_perm _ _
  | leastLoaded => exact stableSort_perm _ _
  | random => exact fromStart_perm _ _

/-- Whether a worker comes last. -/
def degraded (c : ClusterExecutor) (network : Network) (idx : ℕ) : Bool :=
  c.circuitBreaker.isDegraded network.now (c.addr idx)

/-- Every worker is a candidate once, and those that failed often and lately come last, with the order of the
strategy otherwise. -/
structure Selected (c : ClusterExecutor) (network : Network) : Prop where
  perm : (c.selectCandidateIndices network).1.Perm (List.range c.workers.length)
  healthyFirst : (c.selectCandidateIndices network).1.Pairwise fun a b =>
    c.degraded network a = true → c.degraded network b = true
  stable : (c.selectCandidateIndices network).1 =
    (c.strategyOrder network).1.filter (fun idx => !c.degraded network idx) ++
      (c.strategyOrder network).1.filter (c.degraded network)

/-- The candidates are selected as they should be. -/
theorem selected (c : ClusterExecutor) (network : Network) : c.Selected network := by
  have hperm := c.strategyOrder_perm network
  have hdegraded : c.degraded network = fun idx => decide (c.degradedKey network idx = 1) := by
    funext idx
    rw [degraded, degradedKey]
    cases c.circuitBreaker.isDegraded network.now (c.addr idx) <;> rfl
  have hhealthy : (fun idx => !c.degraded network idx) = fun idx => decide (c.degradedKey network idx = 0) := by
    funext idx
    rw [degraded, degradedKey]
    cases c.circuitBreaker.isDegraded network.now (c.addr idx) <;> rfl
  have hselect : (c.selectCandidateIndices network).1 =
      stableSort (c.degradedKey network) (c.strategyOrder network).1 := by
    rw [selectCandidateIndices]
    by_cases hempty : c.workers.length = 0
    · have hnil : (c.strategyOrder network).1 = [] := by
        rw [hempty, List.range_zero] at hperm
        exact hperm.eq_nil
      rw [if_pos hempty, hnil]
      exact (stableSort_perm _ []).eq_nil.symm
    · rw [if_neg hempty]
  have hpairwise : (stableSort (c.degradedKey network) (c.strategyOrder network).1).Pairwise fun a b =>
      c.degraded network a = true → c.degraded network b = true := by
    refine (stableSort_pairwise _ _).imp fun {a b} hle ha => ?_
    rw [hdegraded] at ha ⊢
    have hbound : c.degradedKey network b ≤ 1 := by
      rw [degradedKey]
      split <;> decide
    have hone := of_decide_eq_true ha
    exact decide_eq_true (by omega)
  refine ⟨hselect ▸ (stableSort_perm _ _).trans hperm, hselect ▸ hpairwise, ?_⟩
  rw [hselect]
  refine (eq_partition_of_pairwise _ hpairwise).trans ?_
  rw [hhealthy, hdegraded, stableSort_filter, stableSort_filter]

/-! ## Trying the workers -/

/-- Whether a worker fails at a task. -/
def fails (network : Network) (task : Task) (idx : ℕ) : Bool :=
  match network.execute idx task with
  | .ok _ => false
  | .error _ => true

/-- Workers that are tried and fail. -/
def failedEvents (failed : List ℕ) : List ClusterEvent := failed.flatMap fun idx => [.attempt idx, .failure idx]

/-- What the circuit breaker learns of an event. -/
def recordEvent (c : ClusterExecutor) (network : Network) (breaker : WorkerCircuitBreaker) :
    ClusterEvent → WorkerCircuitBreaker
  | .failure idx => breaker.recordFailure (c.addr idx) (network.failedAt idx)
  | .success idx => breaker.recordSuccess (c.addr idx)
  | _ => breaker

/-- The workers are tried up to the first that does not fail. If all fail there is an answer only without a
local executor to fall back on: that of the last worker. -/
theorem tryWorkers_eq (c : ClusterExecutor) (network : Network) (task : Task) {total : ℕ} (candidates : List ℕ)
    {attempt : ℕ} (htotal : attempt + candidates.length = total) (breaker : WorkerCircuitBreaker) :
    ∃ events, events = failedEvents (candidates.takeWhile (fails network task)) ++
        (match candidates.find? fun idx => !fails network task idx with
          | some winner => [.attempt winner, .success winner]
          | none => []) ∧
      tryWorkers c network task total candidates attempt breaker =
        ((match candidates.find? fun idx => !fails network task idx with
            | some winner => some (network.execute winner task)
            | none => if c.failoverToLocal then none else candidates.getLast?.map (network.execute · task)),
          events, events.foldl (c.recordEvent network) breaker) := by
  induction candidates generalizing attempt breaker with
  | nil =>
    refine ⟨[], rfl, ?_⟩
    rw [tryWorkers]
    cases c.failoverToLocal <;> rfl
  | cons idx rest ih =>
    rw [tryWorkers]
    cases hresult : network.execute idx task with
    | ok outcome =>
      have hfails : fails network task idx = false := by rw [fails, hresult]
      rw [List.takeWhile_cons_of_neg (by rw [hfails]; exact Bool.false_ne_true),
        List.find?_cons_of_pos (by rw [hfails]; rfl)]
      refine ⟨_, rfl, ?_⟩
      simp only [hresult]
      rfl
    | error e =>
      have hfails : fails network task idx = true := by rw [fails, hresult]
      rw [List.takeWhile_cons_of_pos hfails, List.find?_cons_of_neg (by rw [hfails]; exact Bool.false_ne_true)]
      rw [List.length_cons] at htotal
      obtain ⟨events, hevents, heq⟩ := ih (show attempt + 1 + rest.length = total by omega)
        (breaker.recordFailure (c.addr idx) (network.failedAt idx))
      refine ⟨.attempt idx :: .failure idx :: events, by rw [hevents]; rfl, ?_⟩
      simp only
      by_cases hlast : attempt + 1 = total ∧ c.failoverToLocal = false
      · have hrest : rest = [] := List.eq_nil_of_length_eq_zero (by omega)
        subst hrest
        rw [if_pos hlast, hlast.2, hevents]
        simp only [List.find?_nil, List.getLast?_singleton, Option.map_some, hresult]
        rfl
      · rw [if_neg hlast, heq]
        have hgetLast : (if c.failoverToLocal then none else rest.getLast?.map (network.execute · task)) =
            if c.failoverToLocal then none else (idx :: rest).getLast?.map (network.execute · task) := by
          cases hfailover : c.failoverToLocal with
          | true => rfl
          | false =>
            rw [hfailover] at hlast
            have hne : rest ≠ [] := by
              rintro rfl
              exact hlast ⟨by simpa using htotal, rfl⟩
            rw [if_neg Bool.false_ne_true, if_neg Bool.false_ne_true, List.getLast?_cons_of_ne_nil hne]
        rw [hgetLast]
        rfl

/-- What a cluster does for a task: it tries the workers up to the first that does not fail, and runs the task
locally if all fail and it can. -/
def tries (c : ClusterExecutor) (network : Network) (task : Task) (candidates : List ℕ) : List ClusterEvent :=
  failedEvents (candidates.takeWhile (fails network task)) ++
    match candidates.find? fun idx => !fails network task idx with
    | some winner => [.attempt winner, .success winner]
    | none => if c.failoverToLocal then [.runLocal] else []

/-- The answer of a cluster: that of the first worker that does not fail, or else the local one, or else the
failure of the last worker. -/
def answer (c : ClusterExecutor) (network : Network) (task : Task) (candidates : List ℕ) :
    Except ExecutorError TaskOutcome :=
  match candidates.find? fun idx => !fails network task idx with
  | some winner => network.execute winner task
  | none =>
    match c.localExecutor with
    | some run => run task
    | none =>
      match candidates.getLast? with
      | some idx => network.execute idx task
      | none => .error (.spawn task.label .notFound "no remote workers configured and no local fallback")

/-- A selection only moves the counters on. -/
theorem selectCandidateIndices_snd (c : ClusterExecutor) (network : Network) :
    (c.selectCandidateIndices network).2.circuitBreaker = c.circuitBreaker ∧
      (c.selectCandidateIndices network).2.localExecutor = c.localExecutor ∧
      (c.selectCandidateIndices network).2.failoverToLocal = c.failoverToLocal ∧
      (c.selectCandidateIndices network).2.workers = c.workers := by
  rw [selectCandidateIndices]
  split
  · exact ⟨rfl, rfl, rfl, rfl⟩
  · rw [strategyOrder]
    cases c.strategy <;> exact ⟨rfl, rfl, rfl, rfl⟩

/-- Running the task locally teaches the circuit breaker nothing. -/
theorem foldl_recordEvent_runLocal (c : ClusterExecutor) (network : Network) (events : List ClusterEvent)
    (breaker : WorkerCircuitBreaker) :
    (events ++ [ClusterEvent.runLocal]).foldl (c.recordEvent network) breaker =
      events.foldl (c.recordEvent network) breaker := by
  rw [List.foldl_append]
  rfl

/-- Executing a task tries the candidates, answers accordingly, and tells the circuit breaker. -/
theorem execute_eq (c : ClusterExecutor) (network : Network) (task : Task) :
    (c.execute network task).1 = c.answer network task (c.selectCandidateIndices network).1 ∧
      (c.execute network task).2.1 = c.tries network task (c.selectCandidateIndices network).1 ∧
      (c.execute network task).2.2.circuitBreaker =
        (c.execute network task).2.1.foldl (c.recordEvent network) c.circuitBreaker := by
  have hperm := (c.selected network).perm
  have hfailover := c.failover_iff
  rw [execute]
  by_cases hempty : c.workers = []
  · have hnil : (c.selectCandidateIndices network).1 = [] := by
      rw [hempty] at hperm
      exact hperm.eq_nil
    rw [if_pos hempty, hnil, answer, tries, List.find?_nil, List.takeWhile_nil, hfailover]
    cases c.localExecutor <;> exact ⟨rfl, rfl, rfl⟩
  · obtain ⟨hbreaker, hlocal, hsame, hworkers⟩ := c.selectCandidateIndices_snd network
    have haddr : (c.selectCandidateIndices network).2.addr = c.addr := by
      funext idx
      rw [addr, hworkers, addr]
    have hrecord : (c.selectCandidateIndices network).2.recordEvent network = c.recordEvent network := by
      funext breaker event
      cases event <;> simp only [recordEvent, haddr]
    rw [if_neg hempty]
    revert hperm hbreaker hlocal hsame haddr hrecord
    cases c.selectCandidateIndices network with
    | mk candidates next =>
      intro hperm hbreaker hlocal hsame _ hrecord
      have hcandidates : candidates ≠ [] := by
        rintro rfl
        exact hempty (List.eq_nil_of_length_eq_zero (List.length_range.symm.trans hperm.length_eq.symm))
      obtain ⟨events, hevents, heq⟩ := next.tryWorkers_eq network task candidates (Nat.zero_add _) next.circuitBreaker
      simp only
      rw [heq, answer, tries, ← hrecord, ← hbreaker, ← hlocal, ← hsame]
      cases hfind : candidates.find? fun idx => !fails network task idx with
      | some winner =>
        rw [hfind] at hevents
        exact ⟨rfl, hevents, rfl⟩
      | none =>
        rw [hfind, List.append_nil] at hevents
        rw [← hevents]
        obtain ⟨idx, hidx⟩ := Option.isSome_iff_exists.mp (List.getLast?_isSome.mpr hcandidates)
        cases next with
        | mk workers localExecutor roundRobinIdx randomSeed failoverToLocal strategy breaker hfailover =>
          subst hfailover
          cases localExecutor with
          | some run => exact ⟨rfl, rfl, (foldl_recordEvent_runLocal _ _ _ _).symm⟩
          | none =>
            simp only [hidx]
            exact ⟨rfl, (List.append_nil _).symm, rfl⟩

/-! ## What the cluster does for a task -/

/-- The workers that are tried, in order. -/
def attempted (events : List ClusterEvent) : List ℕ := events.filterMap ClusterEvent.worker?

/-- A task goes to the candidates in order, each at most once, until one of them does not fail. Every worker that
failed has one failure recorded and the one that did not has one success. The task is run locally, once, exactly
if all workers fail and there is a local executor to fall back on. -/
structure FailsOver (c : ClusterExecutor) (network : Network) (task : Task) : Prop where
  order : attempted (c.execute network task).2.1 <+: (c.selectCandidateIndices network).1
  once : (attempted (c.execute network task).2.1).Nodup
  firstOk : ∀ winner, (c.selectCandidateIndices network).1.find? (fun idx => !fails network task idx) = some winner →
    (c.execute network task).1 = network.execute winner task ∧
      attempted (c.execute network task).2.1 =
        (c.selectCandidateIndices network).1.takeWhile (fails network task) ++ [winner]
  allFailed : (∀ idx < c.workers.length, fails network task idx = true) →
    attempted (c.execute network task).2.1 = (c.selectCandidateIndices network).1 ∧
      ∀ run, c.localExecutor = some run → (c.execute network task).1 = run task
  failures : ∀ idx, (c.execute network task).2.1.count (.failure idx) =
    if fails network task idx then (attempted (c.execute network task).2.1).count idx else 0
  successes : ∀ idx, (c.execute network task).2.1.count (.success idx) =
    if fails network task idx then 0 else (attempted (c.execute network task).2.1).count idx
  localRuns : (c.execute network task).2.1.count .runLocal =
    if (∀ idx < c.workers.length, fails network task idx = true) ∧ c.failoverToLocal = true then 1 else 0
  recorded : (c.execute network task).2.2.circuitBreaker =
    (c.execute network task).2.1.foldl (c.recordEvent network) c.circuitBreaker

/-- The workers that are tried and fail. -/
theorem attempted_failedEvents (failed : List ℕ) : attempted (failedEvents failed) = failed := by
  induction failed with
  | nil => rfl
  | cons idx failed ih => exact congrArg (idx :: ·) ih

/-- Failing workers have one failure recorded each time they are tried, and nothing else. -/
theorem count_failedEvents (failed : List ℕ) (idx : ℕ) :
    (failedEvents failed).count (.failure idx) = failed.count idx ∧
      (failedEvents failed).count (.success idx) = 0 ∧ (failedEvents failed).count .runLocal = 0 := by
  induction failed with
  | nil => exact ⟨rfl, rfl, rfl⟩
  | cons first failed ih =>
    obtain ⟨hfailure, hsuccess, hlocal⟩ := ih
    have hcons : failedEvents (first :: failed) = .attempt first :: .failure first :: failedEvents failed := rfl
    rw [hcons]
    refine ⟨?_, ?_, ?_⟩
    · rw [List.count_cons, List.count_cons, hfailure, List.count_cons]
      simp
    · rw [List.count_cons, List.count_cons, hsuccess]
      simp
    · rw [List.count_cons, List.count_cons, hlocal]
      simp

/-- What is tried in two parts. -/
theorem attempted_append (events more : List ClusterEvent) :
    attempted (events ++ more) = attempted events ++ attempted more := List.filterMap_append

/-- Workers that all fail are not counted where one that does not fail is looked for. -/
theorem count_of_fails {network : Network} {task : Task} {failed : List ℕ}
    (hall : ∀ idx ∈ failed, fails network task idx = true) (idx : ℕ) :
    failed.count idx = if fails network task idx then failed.count idx else 0 := by
  split
  · rfl
  · rename_i hfails
    exact List.count_eq_zero.mpr fun hmem => hfails (hall idx hmem)

/-- A cluster with a worker that does not fail stops there. -/
theorem failsOver_of_winner {c : ClusterExecutor} {network : Network} {task : Task} {failed rest : List ℕ}
    {winner : ℕ} (hselected : c.Selected network)
    (hcandidates : (c.selectCandidateIndices network).1 = failed ++ winner :: rest)
    (hfailed : ∀ idx ∈ failed, fails network task idx = true) (hwins : fails network task winner = false) :
    c.FailsOver network task := by
  obtain ⟨hanswer, htries, hrecorded⟩ := c.execute_eq network task
  have htakeWhile : (failed ++ winner :: rest).takeWhile (fails network task) = failed := by
    rw [List.takeWhile_append_of_pos hfailed, List.takeWhile_cons_of_neg (by rw [hwins]; exact Bool.false_ne_true),
      List.append_nil]
  have hfind : (failed ++ winner :: rest).find? (fun idx => !fails network task idx) = some winner := by
    rw [List.find?_append, List.find?_eq_none.mpr (by intro idx hidx; rw [hfailed idx hidx]; exact Bool.false_ne_true),
      Option.none_or, List.find?_cons_of_pos (by rw [hwins]; rfl)]
  have hevents : (c.execute network task).2.1 = failedEvents failed ++ [.attempt winner, .success winner] := by
    rw [htries, tries, hcandidates, htakeWhile, hfind]
  have hattempted : attempted (c.execute network task).2.1 = failed ++ [winner] := by
    rw [hevents, attempted_append, attempted_failedEvents]
    rfl
  have hnodup : (failed ++ [winner]).Nodup := by
    have hall := (hselected.perm.nodup_iff).mpr List.nodup_range
    rw [hcandidates] at hall
    exact ((List.prefix_append_right_inj failed).mpr (List.prefix_append [winner] rest)).sublist.nodup hall
  have hlt : winner < c.workers.length := by
    rw [← List.mem_range, ← hselected.perm.mem_iff, hcandidates]
    exact List.mem_append_right _ List.mem_cons_self
  have hother : ∀ idx, fails network task idx = true → winner ≠ idx := by
    rintro idx hfails rfl
    rw [hwins] at hfails
    cases hfails
  refine ⟨?_, hattempted ▸ hnodup, ?_, fun hall => ?_, fun idx => ?_, fun idx => ?_, ?_, hrecorded⟩
  · rw [hattempted, hcandidates]
    exact (List.prefix_append_right_inj failed).mpr (List.prefix_append [winner] rest)
  · intro winner' hwinner'
    rw [hcandidates, hfind] at hwinner'
    cases hwinner'
    rw [hanswer, answer, hattempted, hcandidates, hfind, htakeWhile]
    exact ⟨rfl, rfl⟩
  · exact absurd rfl (hother winner (hall winner hlt))
  · rw [hevents, List.count_append, (count_failedEvents failed idx).1, ← hevents, hattempted, List.count_append,
      count_of_fails hfailed idx]
    cases hfails : fails network task idx with
    | true => simp [hother idx hfails]
    | false => simp
  · rw [hevents, List.count_append, (count_failedEvents failed idx).2.1, ← hevents, hattempted, List.count_append,
      count_of_fails hfailed idx]
    cases hfails : fails network task idx with
    | true => simp [hother idx hfails]
    | false => simp [List.count_singleton]
  · rw [hevents, List.count_append, (count_failedEvents failed 0).2.2, if_neg]
    · simp
    · rintro ⟨hall, _⟩
      exact hother winner (hall winner hlt) rfl

/-- A cluster whose workers all fail tries all of them, and then the local executor, if it has one. -/
theorem failsOver_of_all_fail {c : ClusterExecutor} {network : Network} {task : Task} (hselected : c.Selected network)
    (hall : ∀ idx ∈ (c.selectCandidateIndices network).1, fails network task idx = true) :
    c.FailsOver network task := by
  obtain ⟨hanswer, htries, hrecorded⟩ := c.execute_eq network task
  obtain ⟨candidates, hcandidates⟩ : ∃ candidates, candidates = (c.selectCandidateIndices network).1 := ⟨_, rfl⟩
  have hperm := hselected.perm
  rw [← hcandidates] at hall hanswer htries hperm
  have hfind : candidates.find? (fun idx => !fails network task idx) = none := by
    rw [List.find?_eq_none]
    intro idx hidx
    rw [hall idx hidx]
    exact Bool.false_ne_true
  have hlocal : ∀ idx < c.workers.length, fails network task idx = true := fun idx hidx =>
    hall idx (hperm.mem_iff.mpr (List.mem_range.mpr hidx))
  obtain ⟨last, hlast⟩ : ∃ last : List ClusterEvent, last = if c.failoverToLocal then [.runLocal] else [] := ⟨_, rfl⟩
  have htakeWhile : candidates.takeWhile (fails network task) = candidates := by
    have hend : (candidates ++ []).takeWhile (fails network task) = candidates ++ [] :=
      List.takeWhile_append_of_pos hall
    rwa [List.append_nil] at hend
  have hevents : (c.execute network task).2.1 = failedEvents candidates ++ last := by
    rw [htries, tries, hfind, htakeWhile, hlast]
  have hnone : attempted last = [] ∧ (∀ idx, last.count (.failure idx) = 0 ∧ last.count (.success idx) = 0) ∧
      last.count .runLocal = if c.failoverToLocal = true then 1 else 0 := by
    rw [hlast]
    cases c.failoverToLocal with
    | true => exact ⟨rfl, fun idx => ⟨rfl, rfl⟩, rfl⟩
    | false => exact ⟨rfl, fun idx => ⟨rfl, rfl⟩, rfl⟩
  have hattempted : attempted (c.execute network task).2.1 = candidates := by
    rw [hevents, attempted_append, attempted_failedEvents, hnone.1, List.append_nil]
  refine ⟨?_, ?_, ?_, fun _ => ?_, fun idx => ?_, fun idx => ?_, ?_, hrecorded⟩
  · rw [hattempted, hcandidates]
  · rw [hattempted]
    exact hperm.nodup_iff.mpr List.nodup_range
  · intro winner hwinner
    rw [← hcandidates, hfind] at hwinner
    cases hwinner
  · refine ⟨hattempted.trans hcandidates, fun run hrun => ?_⟩
    rw [hanswer, answer, hfind, hrun]
  · rw [hevents, List.count_append, (count_failedEvents candidates idx).1, (hnone.2.1 idx).1, ← hevents, hattempted]
    exact count_of_fails hall idx
  · rw [hevents, List.count_append, (count_failedEvents candidates idx).2.1, (hnone.2.1 idx).2, ← hevents, hattempted]
    rw [count_of_fails hall idx]
    cases fails network task idx <;> rfl
  · rw [hevents, List.count_append, (count_failedEvents candidates 0).2.2, hnone.2.2, Nat.zero_add]
    exact (if_congr (and_iff_right hlocal) rfl rfl).symm

end ClusterExecutor

end Forge.Worker
