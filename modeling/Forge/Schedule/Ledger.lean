import Forge.Executor.Task
import Forge.Graph.BuildGraph

/-!
# Results of a build

The records both schedulers keep while a build runs, the way a completed task is entered
into them, and the summary drawn from them at the end. `recordOutcome` is the part the two
schedulers share; each wraps it in its own way.
-/

namespace Forge.Schedule

open Forge.Graph Forge.Executor

/-- Why a build could not be run. -/
inductive SchedulerError where
  | invalidGraph (error : GraphError)
  | stalled
  deriving DecidableEq, Repr

/-- When and where a task ran. -/
structure TaskTiming where
  label : String
  description : String
  startOffset : ℕ
  duration : ℕ
  nodeId : NodeId
  workerId : ℕ
  status : TaskStatus
  deriving DecidableEq, Repr

/-- The output of a failed task. -/
structure FailureRecord where
  label : String
  description : String
  stdout : String
  stderr : String
  deriving DecidableEq, Repr

/-- A task on its way to a worker thread. -/
structure Job where
  id : NodeId
  task : Task
  workerId : ℕ
  startOffset : ℕ
  deriving DecidableEq, Repr

/-- The records of a running build. -/
structure Ledger where
  graph : BuildGraph Task
  inFlight : ℕ
  failures : List FailureRecord
  timings : List TaskTiming

/-- The timing of a task that completed. -/
def timingOf (task : Task) (id : NodeId) (outcome : TaskOutcome) (workerId startOffset : ℕ) :
    TaskTiming where
  label := task.label
  description := task.description
  startOffset := startOffset
  duration := outcome.duration
  nodeId := id
  workerId := workerId
  status := outcome.status

/-- The record of a task that failed. -/
def failureOf (task : Task) (outcome : TaskOutcome) : FailureRecord where
  label := task.label
  description := task.description
  stdout := outcome.stdout
  stderr := outcome.stderr

/-- Enter the outcome of a task: its timing, its new state, and the record of a failure. -/
def Ledger.recordOutcome (ledger : Ledger) (id : NodeId) (outcome : TaskOutcome)
    (workerId startOffset : ℕ) : Except GraphError Unit × Ledger :=
  let task := (ledger.graph.node id).map (·.payload)
  let timings := ledger.timings ++
    (task.map fun task => timingOf task id outcome workerId startOffset).toList
  match outcome.status with
  | .executed =>
    let (result, graph) := ledger.graph.setState id .succeeded
    (result, { ledger with graph := graph, timings := timings })
  | .cached =>
    let (result, graph) := ledger.graph.setState id .cached
    (result, { ledger with graph := graph, timings := timings })
  | .failed =>
    match ledger.graph.markFailed id with
    | (.error e, graph) => (.error e, { ledger with graph := graph, timings := timings })
    | (.ok (), graph) =>
      let failures := ledger.failures ++ (task.map fun task => failureOf task outcome).toList
      (.ok (), { ledger with graph := graph, timings := timings, failures := failures })

/-- The summary of a build. -/
structure BuildSummary where
  total : ℕ
  executed : ℕ
  cached : ℕ
  failed : ℕ
  cancelled : ℕ
  duration : ℕ
  workers : ℕ
  failures : List FailureRecord
  timings : List TaskTiming
  deriving DecidableEq, Repr

/-- Count the nodes by their states. -/
def BuildSummary.fromGraph (g : BuildGraph Task) (duration workers : ℕ)
    (failures : List FailureRecord) (timings : List TaskTiming) : BuildSummary where
  total := g.len
  executed := (g.nodes.map (·.state)).count .succeeded
  cached := (g.nodes.map (·.state)).count .cached
  failed := (g.nodes.map (·.state)).count .failed
  cancelled := (g.nodes.map (·.state)).count .cancelled
  duration := duration
  workers := workers
  failures := failures
  timings := timings

/-- No task failed. -/
def BuildSummary.succeeded (summary : BuildSummary) : Bool := summary.failed == 0

/-- The tasks of the failed nodes, as failure records name them. -/
def failedKeys (g : BuildGraph Task) : List (String × String) :=
  (g.nodes.filter fun node => node.state = .failed).map fun node =>
    (node.payload.label, node.payload.description)

/-- The tasks the failure records name. -/
def Ledger.failureKeys (ledger : Ledger) : List (String × String) :=
  ledger.failures.map fun record => (record.label, record.description)

end Forge.Schedule
