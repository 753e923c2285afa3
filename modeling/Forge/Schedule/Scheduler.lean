import Forge.Common.Machine
import Forge.Common.WorkerPool
import Forge.Schedule.Ledger
import Mathlib.Data.List.Sort

/-!
# The scheduler

`Scheduler.run` as a machine whose events are the steps of the scheduling thread and of the
worker threads. The scheduling thread goes through the phases of its loop: it refreshes the
ready list when it is exhausted, dispatches while there is room, checks whether it is done,
waits for one reply and then drains further replies. The worker threads take tasks and
answer them at any time in between.

The number of tasks allowed in flight is computed anew in every iteration from the memory
of the system. `effectiveWorkers` is that computation; the machine leaves the readings open
and admits any number in its range.
-/

namespace Forge.Schedule

open Forge.Common Forge.Graph Forge.Executor

/-- A scheduler's settings, as its constructors leave them. -/
structure Scheduler where
  workers : ℕ
  criticalPath : Bool
  ramThreshold : Option ℕ
  ramFloor : ℕ
  workersPos : 1 ≤ workers
  ramFloorPos : 1 ≤ ramFloor

namespace Scheduler

/-- A scheduler with at least one worker. -/
def new (workers : ℕ) : Scheduler where
  workers := max workers 1
  criticalPath := true
  ramThreshold := none
  ramFloor := 1
  workersPos := le_max_right _ _
  ramFloorPos := le_refl _

/-- Turn the preference for long dependency tails on or off. -/
def withCriticalPathPriority (scheduler : Scheduler) (enabled : Bool) : Scheduler :=
  { scheduler with criticalPath := enabled }

/-- Throttle the build while memory is short. -/
def withRamBackpressure (scheduler : Scheduler) (thresholdPercent floor : ℕ) : Scheduler :=
  { scheduler with
    ramThreshold := some (min thresholdPercent 100)
    ramFloor := max floor 1
    ramFloorPos := le_max_right _ _ }

/-- Whether available memory is below the threshold, with saturating 64-bit products. -/
def ramLimited (available total threshold : ℕ) : Bool :=
  decide (min (available * 100) (2 ^ 64 - 1) < min (total * threshold) (2 ^ 64 - 1))

/-- How many tasks may be in flight. -/
def effectiveWorkers (scheduler : Scheduler) (limited : Bool) : ℕ :=
  match scheduler.ramThreshold with
  | some _ => if limited then min scheduler.ramFloor scheduler.workers else scheduler.workers
  | none => scheduler.workers

/-- Throttled or not, at least one task and at most one per worker may be in flight. -/
theorem effectiveWorkers_range (scheduler : Scheduler) (limited : Bool) :
    1 ≤ scheduler.effectiveWorkers limited ∧ scheduler.effectiveWorkers limited ≤ scheduler.workers := by
  have hworkers := scheduler.workersPos
  have hfloor := scheduler.ramFloorPos
  rw [effectiveWorkers]
  split
  · split
    · exact ⟨le_min hfloor hworkers, min_le_right _ _⟩
    · exact ⟨hworkers, le_refl _⟩
  · exact ⟨hworkers, le_refl _⟩

end Scheduler

/-- The length of the longest chain of dependents from each node. -/
def criticalPathTails (g : BuildGraph Task) : List ℕ :=
  g.topologicalOrder.reverse.foldl (fun tail id =>
    let longestDependent := ((g.dependentList id).map fun dep => tail[dep]?.getD 0).max?.getD 0
    tail.set id (longestDependent + 1)) (List.replicate g.len 0)

/-- Where the scheduling thread stands. -/
inductive Phase where
  | refresh
  | dispatch (effective : ℕ)
  | receive
  | drain
  | finished (result : Except SchedulerError BuildSummary)

/-- The state of a run. The top of the stack of free workers is the head of its list. -/
structure RunState where
  ledger : Ledger
  tail : List ℕ
  ready : List NodeId
  readyIndex : ℕ
  freeWorkers : List ℕ
  pool : WorkerPool Job TaskOutcome
  phase : Phase

/-- The events of a run: `take` and `finish` belong to worker threads, the others to the
scheduling thread. -/
inductive RunEvent (Env : Type*) where
  | refresh (effective : ℕ)
  | dispatch (id : NodeId) (workerId startOffset : ℕ)
  | check (elapsed : ℕ)
  | receive
  | drain
  | drainEnd
  | take (thread : ℕ)
  | finish (thread : ℕ) (env : Env)

namespace Scheduler

variable {Env : Type*}

/-- The state in which the loop is entered. -/
def start (scheduler : Scheduler) (g : BuildGraph Task) : RunState where
  ledger := ⟨g.resetStates, 0, [], []⟩
  tail := criticalPathTails g.resetStates
  ready := []
  readyIndex := 0
  freeWorkers := List.range scheduler.workers
  pool := WorkerPool.start scheduler.workers
  phase :=
    match g.validate with
    | .error e => .finished (.error (.invalidGraph e))
    | .ok () => .refresh

/-- The ready nodes in the order in which they are dispatched. -/
def readyOrder (scheduler : Scheduler) (s : RunState) : List NodeId :=
  let ready := s.ledger.graph.readyNodes
  if scheduler.criticalPath then
    ready.mergeSort fun a b => decide (s.tail[b]?.getD 0 ≤ s.tail[a]?.getD 0)
  else ready

/-- The top of the loop: replace an exhausted ready list and fix the number of workers. -/
def refresh (scheduler : Scheduler) (s : RunState) (effective : ℕ) : Option RunState :=
  match s.phase with
  | .refresh =>
    if 1 ≤ effective ∧ effective ≤ scheduler.workers then
      if s.ready.length ≤ s.readyIndex then
        some { s with
          ready := scheduler.readyOrder s
          readyIndex := 0
          phase := .dispatch effective }
      else some { s with phase := .dispatch effective }
    else none
  | _ => none

/-- Send the next ready node to the workers. -/
def dispatch (s : RunState) (id : NodeId) (workerId startOffset : ℕ) : Option RunState :=
  match s.phase with
  | .dispatch effective =>
    if s.ledger.inFlight < effective ∧ s.ready[s.readyIndex]? = some id ∧
        s.freeWorkers.head?.getD 0 = workerId then
      match s.ledger.graph.setState id .running with
      | (.error e, graph) =>
        some { s with
          ledger := { s.ledger with graph := graph }
          readyIndex := s.readyIndex + 1
          phase := .finished (.error (.invalidGraph e)) }
      | (.ok (), graph) =>
        (graph.node id).map fun node =>
          { s with
            ledger := { s.ledger with graph := graph, inFlight := s.ledger.inFlight + 1 }
            readyIndex := s.readyIndex + 1
            freeWorkers := s.freeWorkers.tail
            pool := s.pool.send ⟨id, node.payload, workerId, startOffset⟩ }
    else none
  | _ => none

/-- After dispatching: finish, give up, or wait for a reply. -/
def check (scheduler : Scheduler) (s : RunState) (elapsed : ℕ) : Option RunState :=
  match s.phase with
  | .dispatch effective =>
    if s.ledger.inFlight < effective ∧ s.readyIndex < s.ready.length then none
    else if s.ledger.graph.nodes.all fun node => node.state.isTerminal then
      some { s with phase := .finished (.ok (.fromGraph s.ledger.graph elapsed scheduler.workers
        s.ledger.failures s.ledger.timings)) }
    else if s.ledger.inFlight = 0 then some { s with phase := .finished (.error .stalled) }
    else some { s with phase := .receive }
  | _ => none

/-- Take one reply off the channel and process the completion. -/
def processCompletion (s : RunState) : Option RunState :=
  s.pool.receive.map fun ((job, outcome), pool) =>
    let ledger := { s.ledger with inFlight := s.ledger.inFlight - 1 }
    let (result, ledger) := ledger.recordOutcome job.id outcome job.workerId job.startOffset
    { s with
      ledger := ledger
      freeWorkers := job.workerId :: s.freeWorkers
      pool := pool
      phase :=
        match result with
        | .error e => .finished (.error (.invalidGraph e))
        | .ok () => .drain }

/-- One event of a run. -/
def step (scheduler : Scheduler) (executor : TaskExecutor Env) (s : RunState) :
    RunEvent Env → Option RunState
  | .refresh effective => scheduler.refresh s effective
  | .dispatch id workerId startOffset => dispatch s id workerId startOffset
  | .check elapsed => scheduler.check s elapsed
  | .receive =>
    match s.phase with
    | .receive => processCompletion s
    | _ => none
  | .drain =>
    match s.phase with
    | .drain => processCompletion s
    | _ => none
  | .drainEnd =>
    match s.phase with
    | .drain => some { s with phase := .refresh }
    | _ => none
  | .take thread => (s.pool.take thread).map fun pool => { s with pool := pool }
  | .finish thread env =>
    (s.pool.finish thread fun job => executor.outcome env job.task).map fun pool =>
      { s with pool := pool }

/-- The machine of a scheduler. -/
def machine (scheduler : Scheduler) (executor : TaskExecutor Env) :
    Machine RunState (RunEvent Env) where
  step := scheduler.step executor

/-- The node an event dispatches, if it does. -/
def dispatchedId : RunEvent Env → Option NodeId
  | .dispatch id _ _ => some id
  | _ => none

/-- The nodes dispatched during a run. -/
def dispatchedIds (events : List (RunEvent Env)) : List NodeId := events.filterMap dispatchedId

end Scheduler

end Forge.Schedule
