import Forge.Graph.Built
import Forge.Schedule.Bookkeeping
import Forge.Common.Machine
import Forge.Common.WorkerPool

/-!
# The work-stealing scheduler

`WorkStealingScheduler.run` as a machine. It dispatches every ready node at once, waits for
one outcome and drains further ones. The priorities that order a batch are read while the
worker threads record new durations, so a batch may come in any order; `weightedOrder` is
the order for weights that stand still. An outcome for a node that a failure has already
cancelled is dropped.
-/

namespace Forge.Schedule

open Forge.Common Forge.Graph Forge.Graph.BuildGraph Forge.Executor

/-- The settings of a work-stealing scheduler, as its constructor leaves them. -/
structure WorkStealingScheduler where
  workerCount : ℕ
  workerCountPos : 1 ≤ workerCount

/-- Where the scheduling thread stands. -/
inductive WsPhase where
  | collect
  | dispatch
  | receive
  | drain
  | finished (result : Except SchedulerError BuildSummary)

/-- The state of a run, with what remains of the current batch. -/
structure WsState where
  ledger : Ledger
  batch : List NodeId
  pool : WorkerPool Job TaskOutcome
  phase : WsPhase

/-- The events of a run: `take` and `finish` belong to worker threads. -/
inductive WsEvent (Env : Type*) where
  | collect (order : List NodeId)
  | dispatch
  | check (elapsed : ℕ)
  | receive
  | drain
  | drainEnd
  | take (thread : ℕ)
  | finish (thread : ℕ) (env : Env)

/-- The length of the longest chain of edges below each node. -/
def computeAllTailLengths (g : BuildGraph Task) : List ℕ :=
  g.topologicalOrder.reverse.foldl (fun tailLengths id =>
    let maxChild := ((g.dependentList id).map fun child => tailLengths[child]?.getD 0 + 1).max?.getD 0
    tailLengths.set id maxChild) (List.replicate g.len 0)

/-- The priority of a node, in wrapping 64-bit arithmetic. -/
def priorityScore (weight : Task → ℕ) (g : BuildGraph Task) (tailLengths : List ℕ) (id : NodeId) : ℕ :=
  (tailLengths[id]?.getD 0 * 1000 + ((g.node id).map fun node => weight node.payload).getD 0) % 2 ^ 64

/-- The ready nodes by descending priority, then by identifier. -/
def weightedOrder (weight : Task → ℕ) (g : BuildGraph Task) : List NodeId :=
  let score := priorityScore weight g (computeAllTailLengths g)
  g.readyNodes.mergeSort fun a b => decide (score b < score a ∨ (score a = score b ∧ a ≤ b))

/-- Enter an outcome, unless its node was cancelled in the meantime. -/
def Ledger.applyOutcome (ledger : Ledger) (id : NodeId) (outcome : TaskOutcome) :
    Except GraphError Unit × Ledger :=
  match ledger.graph.state id with
  | .error e => (.error e, ledger)
  | .ok state =>
    if state = .cancelled then (.ok (), ledger) else ledger.recordOutcome id outcome 0 0

namespace WorkStealingScheduler

variable {Env : Type*}

/-- At least one worker is started. -/
theorem one_le_workerCount (workerCount : ℕ) : 1 ≤ max workerCount 1 := le_max_right _ _

/-- A scheduler with at least one worker. -/
def new (workerCount : ℕ) : WorkStealingScheduler := ⟨max workerCount 1, one_le_workerCount workerCount⟩

/-- The state in which the loop is entered. -/
def start (scheduler : WorkStealingScheduler) (g : BuildGraph Task) : WsState where
  ledger := ⟨g.resetStates, 0, [], []⟩
  batch := []
  pool := WorkerPool.start scheduler.workerCount
  phase :=
    match g.validate with
    | .error e => .finished (.error (.invalidGraph e))
    | .ok () => .collect

/-- Collect the ready nodes in some order. -/
def collect (s : WsState) (order : List NodeId) : Option WsState :=
  match s.phase with
  | .collect =>
    if order.isPerm s.ledger.graph.readyNodes then
      some { s with batch := order, phase := .dispatch }
    else none
  | _ => none

/-- Send the next node of the batch to the workers. -/
def dispatch (s : WsState) : Option WsState :=
  match s.phase, s.batch with
  | .dispatch, id :: batch =>
    (s.ledger.graph.node id).map fun node =>
      match s.ledger.graph.setState id .running with
      | (.error e, graph) =>
        { s with
          ledger := { s.ledger with graph := graph }
          batch := batch
          phase := .finished (.error (.invalidGraph e)) }
      | (.ok (), graph) =>
        { s with
          ledger := { s.ledger with graph := graph, inFlight := s.ledger.inFlight + 1 }
          batch := batch
          pool := s.pool.send ⟨id, node.payload, 0, 0⟩ }
  | _, _ => none

/-- After the batch: finish when nothing is in flight, else wait for an outcome. -/
def check (scheduler : WorkStealingScheduler) (s : WsState) (elapsed : ℕ) : Option WsState :=
  match s.phase, s.batch with
  | .dispatch, [] =>
    if s.ledger.inFlight = 0 then
      some { s with phase := .finished (.ok (.fromGraph s.ledger.graph elapsed scheduler.workerCount
        s.ledger.failures s.ledger.timings)) }
    else some { s with phase := .receive }
  | _, _ => none

/-- Take one outcome off the channel and apply it. -/
def processOutcome (s : WsState) : Option WsState :=
  s.pool.receive.map fun ((job, outcome), pool) =>
    let ledger := { s.ledger with inFlight := s.ledger.inFlight - 1 }
    let (result, ledger) := ledger.applyOutcome job.id outcome
    { s with
      ledger := ledger
      pool := pool
      phase :=
        match result with
        | .error e => .finished (.error (.invalidGraph e))
        | .ok () => .drain }

/-- One event of a run. -/
def step (scheduler : WorkStealingScheduler) (executor : TaskExecutor Env) (s : WsState) :
    WsEvent Env → Option WsState
  | .collect order => collect s order
  | .dispatch => dispatch s
  | .check elapsed => scheduler.check s elapsed
  | .receive =>
    match s.phase with
    | .receive => processOutcome s
    | _ => none
  | .drain =>
    match s.phase with
    | .drain => processOutcome s
    | _ => none
  | .drainEnd =>
    match s.phase with
    | .drain => some { s with phase := .collect }
    | _ => none
  | .take thread => (s.pool.take thread).map fun pool => { s with pool := pool }
  | .finish thread env =>
    (s.pool.finish thread fun job => executor.outcome env job.task).map fun pool =>
      { s with pool := pool }

/-- The machine of a work-stealing scheduler. -/
def machine (scheduler : WorkStealingScheduler) (executor : TaskExecutor Env) :
    Machine WsState (WsEvent Env) where
  step := scheduler.step executor

end WorkStealingScheduler

section Runs

variable {Env : Type*}

/-- What is known in each phase of the loop. -/
def WsPhaseInv (scheduler : WorkStealingScheduler) (s : WsState) : WsPhase → Prop
  | .collect => True
  | .dispatch => s.ledger.inFlight = 0 → s.batch = [] → s.ledger.graph.readyNodes = []
  | .receive => True
  | .drain => True
  | .finished result => FinishedWith scheduler.workerCount s.ledger result

/-- The invariant of a run over the graph `g`. -/
structure WsInv (scheduler : WorkStealingScheduler) (g : BuildGraph Task) (s : WsState) : Prop where
  book : Bookkeeping g s.pool.pending s.ledger
  batch : ∀ id ∈ s.batch, Dispatchable s.ledger.graph id
  batchNodup : s.batch.Nodup
  phase : WsPhaseInv scheduler s s.phase

/-- The state in which the loop is entered satisfies the invariant. -/
theorem WsInv.start (scheduler : WorkStealingScheduler) {g : BuildGraph Task} (h : g.WellFormed) :
    WsInv scheduler g (scheduler.start g) where
  book := by
    rw [WorkStealingScheduler.start, WorkerPool.pending_start]
    exact Bookkeeping.start h
  batch := by simp [WorkStealingScheduler.start]
  batchNodup := by simp [WorkStealingScheduler.start]
  phase := by
    simp only [WorkStealingScheduler.start, h.validate_ok]
    trivial

/-- Collecting a batch keeps the invariant. -/
theorem WsInv.collect {scheduler : WorkStealingScheduler} {g : BuildGraph Task} {s s' : WsState}
    (h : WsInv scheduler g s) {order : List ℕ}
    (hstep : WorkStealingScheduler.collect s order = some s') :
    WsInv scheduler g s' ∧ s'.ledger = s.ledger ∧ s'.pool = s.pool := by
  have hwf := h.book.progress.wellFormed
  unfold WorkStealingScheduler.collect at hstep
  split at hstep
  · split at hstep
    · rename_i hperm
      rw [List.isPerm_iff] at hperm
      rw [Option.some.injEq] at hstep
      subst hstep
      refine ⟨⟨h.book, ?_, hperm.nodup_iff.mpr (nodup_readyNodes hwf), ?_⟩, rfl, rfl⟩
      · exact fun id hid => (mem_readyNodes hwf id).mp (hperm.mem_iff.mp hid)
      · intro _ hnil
        rw [show order = [] from hnil] at hperm
        exact hperm.nil_eq.symm
    · contradiction
  · contradiction

/-- What dispatching does: the next node of the batch is dispatchable and is sent out. -/
theorem WsInv.dispatch_spec {scheduler : WorkStealingScheduler} {g : BuildGraph Task} {s s' : WsState}
    (h : WsInv scheduler g s) (hstep : WorkStealingScheduler.dispatch s = some s') :
    ∃ id task batch, s.phase = .dispatch ∧ s.batch = id :: batch ∧
      Dispatchable s.ledger.graph id ∧ s.ledger.graph.payloadOf id = some task ∧
      s' = { s with
        ledger := s.ledger.dispatched id
        batch := batch
        pool := s.pool.send ⟨id, task, 0, 0⟩ } := by
  unfold WorkStealingScheduler.dispatch at hstep
  split at hstep
  · rename_i id batch hphase hbatch
    have hid : Dispatchable s.ledger.graph id := h.batch id (by rw [hbatch]; exact List.mem_cons_self)
    obtain ⟨node, hnode, hresult⟩ := Option.map_eq_some_iff.mp hstep
    rw [s.ledger.graph.setState_eq (lt_len_of_stateOf hid.1)] at hresult
    refine ⟨id, node.payload, batch, hphase, hbatch, hid, ?_, hresult.symm⟩
    rw [payloadOf, hnode, Option.map_some]
  · contradiction

/-- Dispatching keeps the invariant. -/
theorem WsInv.dispatch {scheduler : WorkStealingScheduler} {g : BuildGraph Task} {s s' : WsState}
    (h : WsInv scheduler g s) (hstep : WorkStealingScheduler.dispatch s = some s') :
    WsInv scheduler g s' := by
  obtain ⟨id, task, batch, hphase, hbatch, hid, htask, heq⟩ := h.dispatch_spec hstep
  subst heq
  have hnodup := h.batchNodup
  rw [hbatch, List.nodup_cons] at hnodup
  constructor
  case book =>
    simp only [WorkerPool.pending_send]
    exact h.book.dispatch hid.1 hid.2 htask
  case batch =>
    intro x hx
    have hne : x ≠ id := fun heq => hnodup.1 (heq ▸ hx)
    exact (h.batch x (by rw [hbatch]; exact List.mem_cons_of_mem _ hx)).withState hid.1 hne
  case batchNodup => exact hnodup.2
  case phase =>
    simp only [hphase]
    exact fun hzero => absurd hzero (Nat.succ_ne_zero _)

/-- The check finishes the run only when every node is settled. -/
theorem WsInv.check {scheduler : WorkStealingScheduler} {g : BuildGraph Task} {s s' : WsState}
    (h : WsInv scheduler g s) {elapsed : ℕ} (hstep : scheduler.check s elapsed = some s') :
    WsInv scheduler g s' ∧ s'.ledger = s.ledger ∧ s'.pool = s.pool := by
  unfold WorkStealingScheduler.check at hstep
  split at hstep
  · rename_i hphase hbatch
    have hphaseInv := h.phase
    rw [hphase] at hphaseInv
    split at hstep
    · rename_i hzero
      rw [Option.some.injEq] at hstep
      subst hstep
      have hterminal := h.book.all_isTerminal hzero (hphaseInv hzero hbatch)
      exact ⟨⟨h.book, h.batch, h.batchNodup, elapsed, rfl, hterminal⟩, rfl, rfl⟩
    · rw [Option.some.injEq] at hstep
      subst hstep
      exact ⟨⟨h.book, h.batch, h.batchNodup, trivial⟩, rfl, rfl⟩
  · contradiction

/-- What processing an outcome does: its node is running, so the outcome is entered. -/
theorem WsInv.processOutcome_spec {scheduler : WorkStealingScheduler} {g : BuildGraph Task}
    {s s' : WsState} (h : WsInv scheduler g s)
    (hstep : WorkStealingScheduler.processOutcome s = some s') :
    ∃ job outcome pool ledger, s.pool.receive = some ((job, outcome), pool) ∧
      Bookkeeping g pool.pending ledger ∧
      s.ledger.graph.stateOf job.id = some .running ∧
      Completed s.ledger.graph job.id outcome.status ledger.graph ∧
      s' = { s with ledger := ledger, pool := pool, phase := .drain } := by
  unfold WorkStealingScheduler.processOutcome at hstep
  obtain ⟨⟨⟨job, outcome⟩, pool⟩, hreceive, hresult⟩ := Option.map_eq_some_iff.mp hstep
  have hbook := h.book
  have hrunning := hbook.running_of_mem (WorkerPool.mem_pending_of_receive hreceive)
  rw [WorkerPool.pending_receive hreceive] at hbook
  obtain ⟨ledger, heq, hnext, hcompleted⟩ := hbook.complete outcome 0 0
  refine ⟨job, outcome, pool, ledger, hreceive, hnext, hrunning, hcompleted, ?_⟩
  rw [Ledger.returned] at heq
  simp only [Ledger.applyOutcome, state_eq, hrunning, heq] at hresult
  exact hresult.symm

/-- Processing an outcome keeps the invariant. -/
theorem WsInv.processOutcome {scheduler : WorkStealingScheduler} {g : BuildGraph Task}
    {s s' : WsState} (h : WsInv scheduler g s)
    (hstep : WorkStealingScheduler.processOutcome s = some s') : WsInv scheduler g s' := by
  obtain ⟨job, outcome, pool, ledger, hreceive, hbook, hrunning, hcompleted, heq⟩ :=
    h.processOutcome_spec hstep
  subst heq
  exact ⟨hbook, fun x hx => (h.batch x hx).completed hrunning hcompleted, h.batchNodup, trivial⟩

/-- A change of the pool that keeps the outstanding jobs keeps the invariant. -/
theorem WsInv.pool {scheduler : WorkStealingScheduler} {g : BuildGraph Task} {s : WsState}
    (h : WsInv scheduler g s) {pool : WorkerPool Job TaskOutcome}
    (hpending : pool.pending = s.pool.pending) : WsInv scheduler g { s with pool := pool } where
  book := by simpa only [hpending] using h.book
  batch := h.batch
  batchNodup := h.batchNodup
  phase := by
    have hphase := h.phase
    revert hphase
    cases s.phase <;> exact id

end Runs

end Forge.Schedule
