import Forge.Schedule.SchedulerRuns
import Forge.Schedule.WorkStealing

/-!
# The two schedulers agree

When the status of a task does not depend on when or where it runs, every finished build of
a graph ends in the same states. The states are determined from the dependencies upwards: a
node with an unsuccessful dependency is cancelled, and any other node has the status of its
task. Both schedulers end in states of this kind, so neither the order of the completions
nor the choice of the scheduler can be seen in the result.
-/

namespace Forge.Schedule

open Forge.Common Forge.Graph Forge.Graph.BuildGraph Forge.Executor

/-- The executor's status is a function of the task. -/
def HasStatus {Env : Type*} (executor : TaskExecutor Env) (status : Task → TaskStatus) : Prop :=
  ∀ task env, (executor.outcome env task).status = status task

/-- Replies and settled nodes carry the status of their task. -/
structure Determined (status : Task → TaskStatus) (ledger : Ledger)
    (pool : WorkerPool Job TaskOutcome) : Prop where
  replies : ∀ answer ∈ pool.done, answer.2.status = status answer.1.task
  settled : ∀ x task state, ledger.graph.payloadOf x = some task → ledger.graph.stateOf x = some state →
    state.isTerminal = true → state ≠ .cancelled → state = statusState (status task)

section Steps

variable {status : Task → TaskStatus} {ledger ledger' : Ledger} {pool pool' : WorkerPool Job TaskOutcome}

/-- At the start nothing is settled and no reply is under way. -/
theorem Determined.start (status : Task → TaskStatus) (g : BuildGraph Task) (threads : ℕ) :
    Determined status ⟨g.resetStates, 0, [], []⟩ (WorkerPool.start threads) where
  replies := by simp [WorkerPool.start]
  settled := by
    intro x task state _ hstate hterminal
    rw [stateOf_resetStates] at hstate
    split at hstate
    · rw [← Option.some.inj hstate] at hterminal
      contradiction
    · contradiction

/-- Sending out a pending node settles nothing. -/
theorem Determined.dispatch (h : Determined status ledger pool) {id : ℕ}
    (hpending : ledger.graph.stateOf id = some .pending) (job : Job) :
    Determined status (ledger.dispatched id) (pool.send job) where
  replies := h.replies
  settled := by
    intro x task state htask hstate hterminal hcancelled
    have hshape := ledger.graph.sameShape_withState id .running
    rw [Ledger.dispatched, hshape.payloadOf] at htask
    rw [Ledger.dispatched, ledger.graph.stateOf_withState (lt_len_of_stateOf hpending)] at hstate
    split at hstate
    · rw [← Option.some.inj hstate] at hterminal
      contradiction
    · exact h.settled x task state htask hstate hterminal hcancelled

/-- Completing a job settles its node with the status of its task. -/
theorem Determined.complete (h : Determined status ledger pool) {g : BuildGraph Task}
    (hbook : Bookkeeping g pool.pending ledger) {job : Job} {outcome : TaskOutcome}
    (hreceive : pool.receive = some ((job, outcome), pool'))
    (hcompleted : Completed ledger.graph job.id outcome.status ledger'.graph) :
    Determined status ledger' pool' where
  replies := by
    have hdone := WorkerPool.done_receive hreceive
    exact fun answer hanswer => h.replies answer (by rw [hdone]; exact List.mem_cons_of_mem _ hanswer)
  settled := by
    intro x task state htask hstate hterminal hcancelled
    have hdone := WorkerPool.done_receive hreceive
    have hjob : job ∈ pool.pending := WorkerPool.mem_pending_of_receive hreceive
    rw [hcompleted.shape.payloadOf] at htask
    by_cases hx : x = job.id
    · subst hx
      have hreply := h.replies (job, outcome) (by rw [hdone]; exact List.mem_cons_self)
      have hpayload := hbook.tasks job hjob
      rw [← hbook.shape.payloadOf, htask, Option.some.injEq] at hpayload
      rw [hcompleted.state, Option.some.injEq] at hstate
      rw [← hstate, hreply, hpayload]
    · cases hcompleted.others x hx with
      | inl hsame =>
        rw [hsame] at hstate
        exact h.settled x task state htask hstate hterminal hcancelled
      | inr hother =>
        rw [hother.2.2, Option.some.injEq] at hstate
        exact absurd hstate.symm hcancelled

/-- Taking a job settles nothing. -/
theorem Determined.take (h : Determined status ledger pool) {thread : ℕ}
    (htake : pool.take thread = some pool') : Determined status ledger pool' where
  replies := by
    rw [WorkerPool.done_take htake]
    exact h.replies
  settled := h.settled

/-- An answer carries the status of its task. -/
theorem Determined.finish {Env : Type*} {executor : TaskExecutor Env} (hstatus : HasStatus executor status)
    (h : Determined status ledger pool) {thread : ℕ} {env : Env}
    (hfinish : (pool.finish thread fun job => executor.outcome env job.task) = some pool') :
    Determined status ledger pool' where
  replies := by
    obtain ⟨job, hdone⟩ := WorkerPool.done_finish hfinish
    intro answer hanswer
    rw [hdone] at hanswer
    cases List.mem_append.mp hanswer with
    | inl hold => exact h.replies answer hold
    | inr hnew =>
      rw [List.mem_singleton.mp hnew]
      exact hstatus job.task env
  settled := h.settled

/-- Every event of the scheduler keeps replies and settled nodes determined. -/
theorem Determined.schedulerStep {Env : Type*} {executor : TaskExecutor Env}
    (hstatus : HasStatus executor status) {scheduler : Scheduler} {g : BuildGraph Task} {s s' : RunState}
    (hinv : SchedulerInv scheduler g s) (h : Determined status s.ledger s.pool) {e : RunEvent Env}
    (hstep : (scheduler.machine executor).step s e = some s') : Determined status s'.ledger s'.pool := by
  have hcompletion : ∀ {s'}, Scheduler.processCompletion s = some s' →
      Determined status s'.ledger s'.pool := by
    intro s' hstep
    obtain ⟨job, outcome, pool, ledger, hreceive, _, _, hcompleted, heq⟩ :=
      hinv.processCompletion_spec hstep
    subst heq
    exact h.complete hinv.book hreceive hcompleted
  cases e with
  | refresh effective =>
    obtain ⟨_, hledger, hpool⟩ := hinv.refresh hstep
    rwa [hledger, hpool]
  | dispatch id workerId startOffset =>
    obtain ⟨_, _, _, _, _, _, _, hid, _, _, heq⟩ := hinv.dispatch_spec hstep
    subst heq
    exact h.dispatch hid.1 _
  | check elapsed =>
    obtain ⟨_, hledger, hpool⟩ := hinv.check hstep
    rwa [hledger, hpool]
  | receive =>
    simp only [Scheduler.machine, Scheduler.step] at hstep
    split at hstep
    · exact hcompletion hstep
    · contradiction
  | drain =>
    simp only [Scheduler.machine, Scheduler.step] at hstep
    split at hstep
    · exact hcompletion hstep
    · contradiction
  | drainEnd =>
    simp only [Scheduler.machine, Scheduler.step] at hstep
    split at hstep
    · rw [Option.some.injEq] at hstep
      subst hstep
      exact h
    · contradiction
  | take thread =>
    obtain ⟨pool, hpool, heq⟩ := Option.map_eq_some_iff.mp hstep
    subst heq
    exact h.take hpool
  | finish thread env =>
    obtain ⟨pool, hpool, heq⟩ := Option.map_eq_some_iff.mp hstep
    subst heq
    exact h.finish hstatus hpool

/-- Every event of the work-stealing scheduler keeps its invariant, and keeps replies and
settled nodes determined. -/
theorem Determined.workStealingStep {Env : Type*} {executor : TaskExecutor Env}
    (hstatus : HasStatus executor status) {scheduler : WorkStealingScheduler} {g : BuildGraph Task}
    {s s' : WsState} (hinv : WsInv scheduler g s) (h : Determined status s.ledger s.pool)
    {e : WsEvent Env} (hstep : (scheduler.machine executor).step s e = some s') :
    WsInv scheduler g s' ∧ Determined status s'.ledger s'.pool := by
  have hcompletion : ∀ {s'}, WorkStealingScheduler.processOutcome s = some s' →
      WsInv scheduler g s' ∧ Determined status s'.ledger s'.pool := by
    intro s' hstep
    refine ⟨hinv.processOutcome hstep, ?_⟩
    obtain ⟨job, outcome, pool, ledger, hreceive, _, _, hcompleted, heq⟩ :=
      hinv.processOutcome_spec hstep
    subst heq
    exact h.complete hinv.book hreceive hcompleted
  cases e with
  | collect order =>
    obtain ⟨hnext, hledger, hpool⟩ := hinv.collect hstep
    exact ⟨hnext, by rwa [hledger, hpool]⟩
  | dispatch =>
    refine ⟨hinv.dispatch hstep, ?_⟩
    obtain ⟨id, task, batch, _, _, hid, _, heq⟩ := hinv.dispatch_spec hstep
    subst heq
    exact h.dispatch hid.1 _
  | check elapsed =>
    obtain ⟨hnext, hledger, hpool⟩ := hinv.check hstep
    exact ⟨hnext, by rwa [hledger, hpool]⟩
  | receive =>
    simp only [WorkStealingScheduler.machine, WorkStealingScheduler.step] at hstep
    split at hstep
    · exact hcompletion hstep
    · contradiction
  | drain =>
    simp only [WorkStealingScheduler.machine, WorkStealingScheduler.step] at hstep
    split at hstep
    · exact hcompletion hstep
    · contradiction
  | drainEnd =>
    simp only [WorkStealingScheduler.machine, WorkStealingScheduler.step] at hstep
    split at hstep
    · rw [Option.some.injEq] at hstep
      subst hstep
      exact ⟨⟨hinv.book, hinv.batch, hinv.batchNodup, trivial⟩, h⟩
    · contradiction
  | take thread =>
    obtain ⟨pool, hpool, heq⟩ := Option.map_eq_some_iff.mp hstep
    subst heq
    exact ⟨hinv.pool (WorkerPool.pending_take hpool), h.take hpool⟩
  | finish thread env =>
    obtain ⟨pool, hpool, heq⟩ := Option.map_eq_some_iff.mp hstep
    subst heq
    exact ⟨hinv.pool (WorkerPool.pending_finish hpool), h.finish hstatus hpool⟩

end Steps

/-- A finished run of either scheduler over the graph `g`, with an executor whose status is
the given function: the graph it leaves behind and the result it returns. -/
inductive FinishedRun (g : BuildGraph Task) (status : Task → TaskStatus) :
    BuildGraph Task → Except SchedulerError BuildSummary → Prop where
  | scheduler {Env : Type} (scheduler : Scheduler) (executor : TaskExecutor Env)
      (events : List (RunEvent Env)) (s : RunState) (result : Except SchedulerError BuildSummary) :
      HasStatus executor status →
      (scheduler.machine executor).exec (scheduler.start g) events = some s →
      s.phase = .finished result → FinishedRun g status s.ledger.graph result
  | workStealing {Env : Type} (scheduler : WorkStealingScheduler) (executor : TaskExecutor Env)
      (events : List (WsEvent Env)) (s : WsState) (result : Except SchedulerError BuildSummary) :
      HasStatus executor status →
      (scheduler.machine executor).exec (scheduler.start g) events = some s →
      s.phase = .finished result → FinishedRun g status s.ledger.graph result

/-- A finished run ends with consistent books, determined states and a summary of them. -/
theorem FinishedRun.settled {g g' : BuildGraph Task} {status : Task → TaskStatus}
    {result : Except SchedulerError BuildSummary} (hwf : g.WellFormed)
    (h : FinishedRun g status g' result) :
    ∃ ledger outstanding pool workers, ledger.graph = g' ∧ Bookkeeping g outstanding ledger ∧
      Determined status ledger pool ∧ FinishedWith workers ledger result := by
  cases h with
  | scheduler scheduler executor events s result hstatus hrun hphase =>
    have hboth : SchedulerInv scheduler g s ∧ Determined status s.ledger s.pool :=
      (scheduler.machine executor).invariant
        (fun s => SchedulerInv scheduler g s ∧ Determined status s.ledger s.pool)
        ⟨SchedulerInv.start scheduler hwf, Determined.start status g _⟩
        (fun _ _ _ hinv hstep => ⟨(hinv.1.step hstep).1, hinv.2.schedulerStep hstatus hinv.1 hstep⟩)
        hrun
    have hfinished := hboth.1.phase
    rw [hphase] at hfinished
    exact ⟨s.ledger, _, s.pool, _, rfl, hboth.1.book, hboth.2, hfinished⟩
  | workStealing scheduler executor events s result hstatus hrun hphase =>
    have hboth : WsInv scheduler g s ∧ Determined status s.ledger s.pool :=
      (scheduler.machine executor).invariant
        (fun s => WsInv scheduler g s ∧ Determined status s.ledger s.pool)
        ⟨WsInv.start scheduler hwf, Determined.start status g _⟩
        (fun _ _ _ hinv hstep => hinv.2.workStealingStep hstatus hinv.1 hstep) hrun
    have hfinished := hboth.1.phase
    rw [hphase] at hfinished
    exact ⟨s.ledger, _, s.pool, _, rfl, hboth.1.book, hboth.2, hfinished⟩

/-- Settled and determined states are the same in any two builds of a graph. -/
theorem stateOf_unique {g : BuildGraph Task} {status : Task → TaskStatus} {ledger ledger' : Ledger}
    {outstanding outstanding' : Multiset Job} {pool pool' : WorkerPool Job TaskOutcome}
    (hwf : g.WellFormed) (hbook : Bookkeeping g outstanding ledger)
    (hbook' : Bookkeeping g outstanding' ledger') (hdet : Determined status ledger pool)
    (hdet' : Determined status ledger' pool')
    (hterminal : ∀ x state, ledger.graph.stateOf x = some state → state.isTerminal = true)
    (hterminal' : ∀ x state, ledger'.graph.stateOf x = some state → state.isTerminal = true) (x : ℕ) :
    ledger.graph.stateOf x = ledger'.graph.stateOf x := by
  induction x using hwf.edge_wf.induction with
  | _ x ih =>
    cases Nat.lt_or_ge x g.len with
    | inr hge =>
      rw [(ledger.graph.stateOf_eq_none_iff x).mpr (by rwa [hbook.shape.len]),
        (ledger'.graph.stateOf_eq_none_iff x).mpr (by rwa [hbook'.shape.len])]
    | inl hlt =>
      have hlt₁ : x < ledger.graph.len := by rwa [hbook.shape.len]
      have hlt₂ : x < ledger'.graph.len := by rwa [hbook'.shape.len]
      -- the dependencies agree by induction, so they cancel the node in both or in neither
      have hcancel : ledger.graph.stateOf x = some .cancelled ↔ ledger'.graph.stateOf x = some .cancelled := by
        rw [hbook.progress.cancelled x hlt₁, hbook'.progress.cancelled x hlt₂]
        simp only [hbook.shape.depList, hbook'.shape.depList]
        refine exists_congr fun dep => and_congr_right fun hdep => ?_
        rw [Unsuccessful, Unsuccessful, ih dep (hwf.mem_depList_iff.mp hdep)]
      obtain ⟨state, hstate⟩ := exists_stateOf hlt₁
      obtain ⟨state', hstate'⟩ := exists_stateOf hlt₂
      by_cases hcancelled : state = .cancelled
      · rw [hcancelled] at hstate
        rw [hstate, hcancel.mp hstate]
      · have hcancelled' : state' ≠ .cancelled := by
          intro heq
          rw [heq, ← hcancel, hstate, Option.some.injEq] at hstate'
          exact hcancelled hstate'
        obtain ⟨node, hnode, _⟩ := Option.map_eq_some_iff.mp hstate
        have htask : ledger.graph.payloadOf x = some node.payload := by
          rw [payloadOf, hnode, Option.map_some]
        have htask' : ledger'.graph.payloadOf x = some node.payload := by
          rw [hbook'.shape.payloadOf, ← hbook.shape.payloadOf, htask]
        rw [hstate, hstate', hdet.settled x _ state htask hstate (hterminal x state hstate) hcancelled,
          hdet'.settled x _ state' htask' hstate' (hterminal' x state' hstate') hcancelled']

/-- Graphs of one shape with the same states list the same states and the same failures. -/
theorem states_eq {g g₁ g₂ : BuildGraph Task} (h₁ : g.SameShape g₁) (h₂ : g.SameShape g₂)
    (hstates : ∀ x, g₁.stateOf x = g₂.stateOf x) :
    g₁.nodes.map (·.state) = g₂.nodes.map (·.state) ∧ failedKeys g₁ = failedKeys g₂ := by
  refine ⟨?_, ?_⟩
  · apply List.ext_getElem?
    intro i
    rw [List.getElem?_map, List.getElem?_map]
    exact hstates i
  · rw [failedKeys_eq, failedKeys_eq, h₁.len, h₂.len]
    refine List.filterMap_congr fun x _ => ?_
    rw [failedKeyAt, failedKeyAt, hstates x, h₁.payloadOf, h₂.payloadOf]

/-- A status by which everything fails. -/
def alwaysFailed : Task → TaskStatus := fun _ => .failed

/-- An executor that never gets to an outcome. -/
def panicking : TaskExecutor Unit := ⟨fun _ _ => .panic none⟩

/-- Panics count as failures. -/
theorem panicking_hasStatus : HasStatus panicking alwaysFailed := fun _ _ => rfl

/-- A run of the scheduler over the pair. -/
def schedulerEvents : List (RunEvent Unit) :=
  [.refresh 1, .dispatch 0 0 3, .check 4, .take 0, .finish 0 (), .receive, .drainEnd, .refresh 2, .check 9]

/-- A run of the work-stealing scheduler over the pair. -/
def workStealingEvents : List (WsEvent Unit) :=
  [.collect [0], .dispatch, .check 2, .take 1, .finish 1 (), .receive, .drainEnd, .collect [], .check 3]

end Forge.Schedule
