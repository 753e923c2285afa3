import Forge.Graph.Built
import Forge.Schedule.Bookkeeping
import Forge.Schedule.Scheduler

/-!
# Runs of the scheduler

The invariant ties together the states of the nodes, the part of the ready list that was
not dispatched yet, the counter of tasks in flight, the stack of free workers and whatever
is on its way through the channels. The ready list goes stale while completions are
processed, but never wrong: a node whose dependencies are satisfied cannot be cancelled any
more. The counter drops to zero only together with the last outstanding job, and then an
exhausted ready list means that nothing is left to do.
-/

namespace Forge.Schedule

open Forge.Common Forge.Graph Forge.Graph.BuildGraph Forge.Executor

variable {Env : Type*}

/-- What is known in each phase of the loop. -/
def PhaseInv (scheduler : Scheduler) (s : RunState) : Phase → Prop
  | .refresh => True
  | .dispatch effective => 1 ≤ effective ∧ effective ≤ scheduler.workers ∧
      (s.ledger.inFlight = 0 → s.ready.length ≤ s.readyIndex → s.ledger.graph.readyNodes = [])
  | .receive => s.ledger.inFlight ≠ 0
  | .drain => True
  | .finished result => FinishedWith scheduler.workers s.ledger result

/-- The invariant of a run over the graph `g`. -/
structure SchedulerInv (scheduler : Scheduler) (g : BuildGraph Task) (s : RunState) : Prop where
  book : Bookkeeping g s.pool.pending s.ledger
  workers : (s.freeWorkers : Multiset ℕ) + s.pool.pending.map (·.workerId) =
    Multiset.range scheduler.workers
  ready : ∀ id ∈ s.ready.drop s.readyIndex, Dispatchable s.ledger.graph id
  readyNodup : (s.ready.drop s.readyIndex).Nodup
  phase : PhaseInv scheduler s s.phase

/-- Ordering the ready nodes only rearranges them. -/
theorem readyOrder_perm (scheduler : Scheduler) (s : RunState) :
    (scheduler.readyOrder s).Perm s.ledger.graph.readyNodes := by
  rw [Scheduler.readyOrder]
  split
  · exact List.mergeSort_perm _ _
  · exact List.Perm.refl _

/-- The state in which the loop is entered satisfies the invariant. -/
theorem SchedulerInv.start (scheduler : Scheduler) {g : BuildGraph Task} (h : g.WellFormed) :
    SchedulerInv scheduler g (scheduler.start g) where
  book := by
    rw [Scheduler.start, WorkerPool.pending_start]
    exact Bookkeeping.start h
  workers := by
    rw [Scheduler.start, WorkerPool.pending_start, Multiset.map_zero, add_zero]
    rfl
  ready := by simp [Scheduler.start]
  readyNodup := by simp [Scheduler.start]
  phase := by
    simp only [Scheduler.start, h.validate_ok]
    trivial

/-- Refreshing the ready list keeps the invariant. -/
theorem SchedulerInv.refresh {scheduler : Scheduler} {g : BuildGraph Task} {s s' : RunState}
    (h : SchedulerInv scheduler g s) {effective : ℕ}
    (hstep : scheduler.refresh s effective = some s') :
    SchedulerInv scheduler g s' ∧ s'.ledger = s.ledger ∧ s'.pool = s.pool := by
  have hwf := h.book.progress.wellFormed
  unfold Scheduler.refresh at hstep
  split at hstep
  · split at hstep
    · rename_i hrange
      split at hstep
      · rw [Option.some.injEq] at hstep
        subst hstep
        have hperm := readyOrder_perm scheduler s
        refine ⟨⟨h.book, h.workers, ?_, ?_, ?_⟩, rfl, rfl⟩
        · intro id hid
          simp only [List.drop_zero] at hid
          exact (mem_readyNodes hwf id).mp (hperm.mem_iff.mp hid)
        · simp only [List.drop_zero]
          exact hperm.nodup_iff.mpr (nodup_readyNodes hwf)
        · refine ⟨hrange.1, hrange.2, fun _ hlength => ?_⟩
          have hnil : scheduler.readyOrder s = [] := List.eq_nil_of_length_eq_zero (Nat.le_zero.mp hlength)
          rw [hnil] at hperm
          exact hperm.nil_eq.symm
      · rename_i hmore
        rw [Option.some.injEq] at hstep
        subst hstep
        exact ⟨⟨h.book, h.workers, h.ready, h.readyNodup, hrange.1, hrange.2,
          fun _ hlength => absurd hlength hmore⟩, rfl, rfl⟩
    · contradiction
  · contradiction

/-- What dispatching does: the next node of the ready list is dispatchable and is sent out
under a free worker. -/
theorem SchedulerInv.dispatch_spec {scheduler : Scheduler} {g : BuildGraph Task} {s s' : RunState}
    (h : SchedulerInv scheduler g s) {id workerId startOffset : ℕ}
    (hstep : Scheduler.dispatch s id workerId startOffset = some s') :
    ∃ effective task freeWorkers ready, s.phase = .dispatch effective ∧
      s.ready.drop s.readyIndex = id :: ready ∧ s.ready.drop (s.readyIndex + 1) = ready ∧
      Dispatchable s.ledger.graph id ∧ s.ledger.graph.payloadOf id = some task ∧
      s.freeWorkers = workerId :: freeWorkers ∧
      s' = { s with
        ledger := s.ledger.dispatched id
        readyIndex := s.readyIndex + 1
        freeWorkers := freeWorkers
        pool := s.pool.send ⟨id, task, workerId, startOffset⟩ } := by
  unfold Scheduler.dispatch at hstep
  split at hstep
  · rename_i effective hphase
    split at hstep
    · rename_i hguard
      obtain ⟨hroom, hget, hworker⟩ := hguard
      have hlt := (List.getElem?_eq_some_iff.mp hget).1
      have hdrop : s.ready.drop s.readyIndex = id :: s.ready.drop (s.readyIndex + 1) := by
        rw [List.drop_eq_getElem_cons hlt, (List.getElem?_eq_some_iff.mp hget).2]
      have hid : Dispatchable s.ledger.graph id := h.ready id (by rw [hdrop]; exact List.mem_cons_self)
      have hlen := lt_len_of_stateOf hid.1
      obtain ⟨task, htask⟩ : ∃ task, s.ledger.graph.payloadOf id = some task := by
        obtain ⟨node, hnode, _⟩ := Option.map_eq_some_iff.mp hid.1
        exact ⟨node.payload, by rw [payloadOf, hnode, Option.map_some]⟩
      have hnode := (s.ledger.graph.sameShape_withState id .running).payloadOf id
      rw [htask, payloadOf] at hnode
      obtain ⟨node, hget', hpayload⟩ := Option.map_eq_some_iff.mp hnode
      simp only [s.ledger.graph.setState_eq hlen, hget', Option.map_some, Option.some.injEq] at hstep
      -- fewer jobs than workers are outstanding, so a worker is free
      have hphaseInv := h.phase
      rw [hphase] at hphaseInv
      have hcard := congrArg Multiset.card h.workers
      rw [Multiset.card_add, Multiset.card_map, Multiset.card_range, Multiset.coe_card,
        ← h.book.inFlight] at hcard
      have hle := hphaseInv.2.1
      cases hfree : s.freeWorkers with
      | nil =>
        rw [hfree, List.length_nil] at hcard
        omega
      | cons worker freeWorkers =>
        rw [hfree] at hworker
        have hworkerId : worker = workerId := hworker
        subst hworkerId
        refine ⟨effective, task, freeWorkers, _, hphase, hdrop, rfl, hid, htask, rfl, ?_⟩
        rw [← hstep, hfree, hpayload]
        rfl
    · contradiction
  · contradiction

/-- Dispatching keeps the invariant. -/
theorem SchedulerInv.dispatch {scheduler : Scheduler} {g : BuildGraph Task} {s s' : RunState}
    (h : SchedulerInv scheduler g s) {id workerId startOffset : ℕ}
    (hstep : Scheduler.dispatch s id workerId startOffset = some s') :
    SchedulerInv scheduler g s' := by
  obtain ⟨effective, task, freeWorkers, ready, hphase, hdrop, hnext, hid, htask, hfree, heq⟩ :=
    h.dispatch_spec hstep
  subst heq
  have hnodup := h.readyNodup
  rw [hdrop, List.nodup_cons] at hnodup
  have hphaseInv := h.phase
  rw [hphase] at hphaseInv
  constructor
  case book =>
    simp only [WorkerPool.pending_send]
    exact h.book.dispatch hid.1 hid.2 htask
  case workers =>
    have hworkers := h.workers
    rw [hfree, ← Multiset.cons_coe, Multiset.cons_add] at hworkers
    simp only [WorkerPool.pending_send, Multiset.map_cons, Multiset.add_cons]
    exact hworkers
  case ready =>
    intro x hx
    simp only [hnext] at hx
    have hne : x ≠ id := fun heq => hnodup.1 (heq ▸ hx)
    exact (h.ready x (by rw [hdrop]; exact List.mem_cons_of_mem _ hx)).withState hid.1 hne
  case readyNodup =>
    simp only [hnext]
    exact hnodup.2
  case phase =>
    simp only [hphase]
    exact ⟨hphaseInv.1, hphaseInv.2.1, fun hzero => absurd hzero (Nat.succ_ne_zero _)⟩

/-- The check finishes the run only when every node is terminal, and never gives up. -/
theorem SchedulerInv.check {scheduler : Scheduler} {g : BuildGraph Task} {s s' : RunState}
    (h : SchedulerInv scheduler g s) {elapsed : ℕ} (hstep : scheduler.check s elapsed = some s') :
    SchedulerInv scheduler g s' ∧ s'.ledger = s.ledger ∧ s'.pool = s.pool := by
  unfold Scheduler.check at hstep
  split at hstep
  · rename_i effective hphase
    have hphaseInv := h.phase
    rw [hphase] at hphaseInv
    split at hstep
    · contradiction
    · rename_i hfull
      split at hstep
      · rename_i hterminal
        rw [Option.some.injEq] at hstep
        subst hstep
        exact ⟨⟨h.book, h.workers, h.ready, h.readyNodup, elapsed, rfl, hterminal⟩, rfl, rfl⟩
      · rename_i hnotTerminal
        split at hstep
        · rename_i hzero
          have hexhausted : s.ready.length ≤ s.readyIndex := by
            have hpos := hphaseInv.1
            by_contra hmore
            exact hfull ⟨by omega, by omega⟩
          exact absurd (h.book.all_isTerminal hzero (hphaseInv.2.2 hzero hexhausted)) hnotTerminal
        · rename_i hpos
          rw [Option.some.injEq] at hstep
          subst hstep
          exact ⟨⟨h.book, h.workers, h.ready, h.readyNodup, hpos⟩, rfl, rfl⟩
  · contradiction

/-- What processing a completion does: the oldest reply settles its node. -/
theorem SchedulerInv.processCompletion_spec {scheduler : Scheduler} {g : BuildGraph Task}
    {s s' : RunState} (h : SchedulerInv scheduler g s)
    (hstep : Scheduler.processCompletion s = some s') :
    ∃ job outcome pool ledger, s.pool.receive = some ((job, outcome), pool) ∧
      Bookkeeping g pool.pending ledger ∧
      s.ledger.graph.stateOf job.id = some .running ∧
      Completed s.ledger.graph job.id outcome.status ledger.graph ∧
      s' = { s with
        ledger := ledger
        freeWorkers := job.workerId :: s.freeWorkers
        pool := pool
        phase := .drain } := by
  unfold Scheduler.processCompletion at hstep
  obtain ⟨⟨⟨job, outcome⟩, pool⟩, hreceive, hresult⟩ := Option.map_eq_some_iff.mp hstep
  have hbook := h.book
  have hrunning := hbook.running_of_mem (WorkerPool.mem_pending_of_receive hreceive)
  rw [WorkerPool.pending_receive hreceive] at hbook
  obtain ⟨ledger, heq, hnext, hcompleted⟩ := hbook.complete outcome job.workerId job.startOffset
  refine ⟨job, outcome, pool, ledger, hreceive, hnext, hrunning, hcompleted, ?_⟩
  rw [Ledger.returned] at heq
  simp only [heq] at hresult
  exact hresult.symm

/-- Processing a completion keeps the invariant. -/
theorem SchedulerInv.processCompletion {scheduler : Scheduler} {g : BuildGraph Task}
    {s s' : RunState} (h : SchedulerInv scheduler g s)
    (hstep : Scheduler.processCompletion s = some s') : SchedulerInv scheduler g s' := by
  obtain ⟨job, outcome, pool, ledger, hreceive, hbook, hrunning, hcompleted, heq⟩ :=
    h.processCompletion_spec hstep
  subst heq
  constructor
  case book => exact hbook
  case workers =>
    have hworkers := h.workers
    rw [WorkerPool.pending_receive hreceive, Multiset.map_cons, Multiset.add_cons] at hworkers
    rw [← hworkers, ← Multiset.cons_coe, Multiset.cons_add]
  case ready => exact fun x hx => (h.ready x hx).completed hrunning hcompleted
  case readyNodup => exact h.readyNodup
  case phase => trivial

/-- A change of the pool that keeps the outstanding jobs keeps the invariant. -/
theorem SchedulerInv.pool {scheduler : Scheduler} {g : BuildGraph Task} {s : RunState}
    (h : SchedulerInv scheduler g s) {pool : WorkerPool Job TaskOutcome}
    (hpending : pool.pending = s.pool.pending) : SchedulerInv scheduler g { s with pool := pool } where
  book := by simpa only [hpending] using h.book
  workers := by simpa only [hpending] using h.workers
  ready := h.ready
  readyNodup := h.readyNodup
  phase := by
    have hphase := h.phase
    revert hphase
    cases s.phase <;> exact id

/-- Every event keeps the invariant, and no node returns to the pending state. -/
theorem SchedulerInv.step {scheduler : Scheduler} {executor : TaskExecutor Env} {g : BuildGraph Task}
    {s s' : RunState} (h : SchedulerInv scheduler g s) {e : RunEvent Env}
    (hstep : (scheduler.machine executor).step s e = some s') :
    SchedulerInv scheduler g s' ∧ ∀ x, s.ledger.graph.stateOf x ≠ some .pending →
      s'.ledger.graph.stateOf x ≠ some .pending := by
  have hcompletion : ∀ {s'}, Scheduler.processCompletion s = some s' →
      SchedulerInv scheduler g s' ∧ ∀ x, s.ledger.graph.stateOf x ≠ some .pending →
        s'.ledger.graph.stateOf x ≠ some .pending := by
    intro s' hstep
    refine ⟨h.processCompletion hstep, ?_⟩
    obtain ⟨job, outcome, pool, ledger, _, _, _, hcompleted, heq⟩ := h.processCompletion_spec hstep
    subst heq
    intro x hx
    by_cases hjob : x = job.id
    · rw [hjob, hcompleted.state]
      cases outcome.status <;> simp [statusState]
    · cases hcompleted.others x hjob with
      | inl hsame => rwa [hsame]
      | inr hcancelled => exact absurd hcancelled.1 hx
  cases e with
  | refresh effective =>
    obtain ⟨hinv, hledger, _⟩ := h.refresh hstep
    exact ⟨hinv, fun x hx => by rwa [hledger]⟩
  | dispatch id workerId startOffset =>
    refine ⟨h.dispatch hstep, ?_⟩
    obtain ⟨_, _, _, _, _, _, _, hid, _, _, heq⟩ := h.dispatch_spec hstep
    subst heq
    intro x hx
    rw [Ledger.dispatched, s.ledger.graph.stateOf_withState (lt_len_of_stateOf hid.1)]
    split
    · simp
    · exact hx
  | check elapsed =>
    obtain ⟨hinv, hledger, _⟩ := h.check hstep
    exact ⟨hinv, fun x hx => by rwa [hledger]⟩
  | receive =>
    simp only [Scheduler.machine, Scheduler.step] at hstep
    split at hstep
    · exact hcompletion hstep
    · contradiction
  | drain =>
    simp only [Scheduler.machine, Scheduler.step] at hstep
    split at hstep
    · exact hcompletion hstep
    · contradiction
  | drainEnd =>
    simp only [Scheduler.machine, Scheduler.step] at hstep
    split at hstep
    · rw [Option.some.injEq] at hstep
      subst hstep
      exact ⟨⟨h.book, h.workers, h.ready, h.readyNodup, trivial⟩, fun _ hx => hx⟩
    · contradiction
  | take thread =>
    obtain ⟨pool, hpool, heq⟩ := Option.map_eq_some_iff.mp hstep
    subst heq
    exact ⟨h.pool (WorkerPool.pending_take hpool), fun _ hx => hx⟩
  | finish thread env =>
    obtain ⟨pool, hpool, heq⟩ := Option.map_eq_some_iff.mp hstep
    subst heq
    exact ⟨h.pool (WorkerPool.pending_finish hpool), fun _ hx => hx⟩

/-- Every state a run reaches satisfies the invariant. -/
theorem SchedulerInv.run {scheduler : Scheduler} {executor : TaskExecutor Env} {g : BuildGraph Task}
    (h : g.WellFormed) {events : List (RunEvent Env)} {s : RunState}
    (hrun : (scheduler.machine executor).exec (scheduler.start g) events = some s) :
    SchedulerInv scheduler g s :=
  (scheduler.machine executor).invariant (SchedulerInv scheduler g) (SchedulerInv.start scheduler h)
    (fun _ _ _ hinv hstep => (hinv.step hstep).1) hrun

/-- Only dispatch events dispatch a node. -/
theorem dispatchedId_eq_some {e : RunEvent Env} {id : ℕ} (h : Scheduler.dispatchedId e = some id) :
    ∃ workerId startOffset, e = .dispatch id workerId startOffset := by
  unfold Scheduler.dispatchedId at h
  split at h
  · rename_i id' workerId startOffset
    rw [Option.some.injEq] at h
    exact ⟨workerId, startOffset, by rw [h]⟩
  · contradiction

/-- No node is dispatched twice: a dispatched node is never pending again. -/
theorem dispatchedIds_nodup {scheduler : Scheduler} {executor : TaskExecutor Env} {g : BuildGraph Task}
    (h : g.WellFormed) {events : List (RunEvent Env)} {s : RunState}
    (hrun : (scheduler.machine executor).exec (scheduler.start g) events = some s) :
    (Scheduler.dispatchedIds events).Nodup := by
  have hhistory : SchedulerInv scheduler g s ∧ (Scheduler.dispatchedIds events).Nodup ∧
      ∀ id ∈ Scheduler.dispatchedIds events, s.ledger.graph.stateOf id ≠ some .pending := by
    refine (scheduler.machine executor).history_invariant
      (fun history s => SchedulerInv scheduler g s ∧ (Scheduler.dispatchedIds history).Nodup ∧
        ∀ id ∈ Scheduler.dispatchedIds history, s.ledger.graph.stateOf id ≠ some .pending)
      ⟨SchedulerInv.start scheduler h, by simp [Scheduler.dispatchedIds],
        by simp [Scheduler.dispatchedIds]⟩ ?_ hrun
    intro history s e s' hbefore hstep
    obtain ⟨hinv, hnodup, hstarted⟩ := hbefore
    obtain ⟨hinv', hkeep⟩ := hinv.step hstep
    have hold : ∀ id ∈ Scheduler.dispatchedIds history, s'.ledger.graph.stateOf id ≠ some .pending :=
      fun id hid => hkeep id (hstarted id hid)
    have happend : Scheduler.dispatchedIds (history ++ [e]) =
        Scheduler.dispatchedIds history ++ (Scheduler.dispatchedId e).toList := by
      rw [Scheduler.dispatchedIds, List.filterMap_append, List.filterMap_cons]
      cases Scheduler.dispatchedId e <;> rfl
    rw [happend]
    cases hdispatched : Scheduler.dispatchedId e with
    | none =>
      rw [Option.toList_none, List.append_nil]
      exact ⟨hinv', hnodup, hold⟩
    | some id =>
      obtain ⟨workerId, startOffset, he⟩ := dispatchedId_eq_some hdispatched
      subst he
      obtain ⟨_, _, _, _, _, _, _, hid, _, _, heq⟩ := hinv.dispatch_spec hstep
      rw [Option.toList_some]
      refine ⟨hinv', ?_, ?_⟩
      · refine hnodup.append (List.nodup_singleton id) ?_
        intro x hx hid'
        rw [List.mem_singleton.mp hid'] at hx
        exact hstarted id hx hid.1
      · intro x hx
        cases List.mem_append.mp hx with
        | inl hmem => exact hold x hmem
        | inr hmem =>
          rw [List.mem_singleton.mp hmem, heq, Ledger.dispatched,
            s.ledger.graph.stateOf_withState (lt_len_of_stateOf hid.1), if_pos rfl]
          simp
  exact hhistory.2.1

/-- For every graph, scheduler and executor, and every order of the events: no node is
dispatched twice, a node is dispatched only after its dependencies succeeded, tasks in
flight carry different worker ids, the run never ends with an error and in particular never
stalls, and a finished run is complete. -/
theorem run_safe_complete (scheduler : Scheduler) (executor : TaskExecutor Env) (g : BuildGraph Task)
    (hbuilt : g.Built) (events : List (RunEvent Env)) (s : RunState)
    (hrun : (scheduler.machine executor).exec (scheduler.start g) events = some s) :
    (Scheduler.dispatchedIds events).Nodup ∧
      (∀ id workerId startOffset s',
        (scheduler.machine executor).step s (.dispatch id workerId startOffset) = some s' →
          ∀ dep ∈ g.depList id, ∃ state ∈ [TaskState.succeeded, .cached, .skipped],
            s.ledger.graph.stateOf dep = some state) ∧
      (s.pool.pending.map (·.workerId)).Nodup ∧
      (∀ error, s.phase ≠ .finished (.error error)) ∧
      ∀ summary, s.phase = .finished (.ok summary) →
        g.SameShape s.ledger.graph ∧ BuildComplete s.ledger.graph summary := by
  have hinv := SchedulerInv.run hbuilt.wellFormed hrun
  have hphase := hinv.phase
  refine ⟨dispatchedIds_nodup hbuilt.wellFormed hrun, ?_, ?_, ?_, ?_⟩
  · intro id workerId startOffset s' hstep dep hdep
    obtain ⟨_, _, _, _, _, _, _, hid, _⟩ := hinv.dispatch_spec hstep
    rw [← hinv.book.shape.depList] at hdep
    obtain ⟨state, hstate, hgood⟩ := hid.2 dep hdep
    refine ⟨state, ?_, hstate⟩
    cases state <;> simp_all [TaskState.isSuccessful]
  · have hnodup : (s.freeWorkers + s.pool.pending.map (·.workerId) : Multiset ℕ).Nodup := by
      rw [hinv.workers]
      exact Multiset.nodup_range _
    exact (Multiset.nodup_add.mp hnodup).2.1
  · intro error herror
    rw [herror] at hphase
    obtain ⟨_, heq, _⟩ := hphase
    contradiction
  · intro summary hsummary
    rw [hsummary] at hphase
    obtain ⟨elapsed, heq, hterminal⟩ := hphase
    rw [Except.ok.injEq] at heq
    refine ⟨hinv.book.shape, ?_⟩
    rw [heq]
    exact hinv.book.complete_summary ((all_isTerminal_iff _).mp hterminal) elapsed scheduler.workers

/-- An executor that reports whatever outcome the environment holds. -/
def scripted : TaskExecutor TaskOutcome := ⟨fun _ outcome => .ok outcome⟩

/-- A task that is known by its label alone. -/
def labelled (label : String) : Task := .new label label ⟨label, [], [], false, none⟩

/-- A library and the application that depends on it. -/
def pair : BuildGraph Task :=
  let g := (BuildGraph.new.addNode (labelled "lib")).2
  let g := (g.addNode (labelled "app")).2
  (g.addDependency 0 1).2

/-- The pair is reached by the graph operations. -/
theorem pair_built : pair.Built := ((Built.new.addNode _).addNode _).addDependency 0 1

/-- A run of two workers in which the library fails. -/
def failingRun : List (RunEvent TaskOutcome) :=
  [.refresh 2, .dispatch 0 0 3, .check 4, .take 1, .finish 1 (.failed (labelled "lib") "no"), .receive,
    .drainEnd, .refresh 1, .check 9]

/-- The settings of that run. -/
def twoWorkers : Scheduler := (Scheduler.new 2).withCriticalPathPriority false

/-- In the failing run the application is cancelled and the summary counts both nodes. -/
theorem run_safe_complete_pair :
    ∃ s summary, (twoWorkers.machine scripted).exec (twoWorkers.start pair) failingRun = some s ∧
      s.phase = .finished (.ok summary) ∧ BuildComplete s.ledger.graph summary ∧
      summary.failed = 1 ∧ summary.cancelled = 1 := by
  have hsome : ((twoWorkers.machine scripted).exec (twoWorkers.start pair) failingRun).isSome = true := by
    rfl
  have hrun := (Option.some_get hsome).symm
  have hsafe := run_safe_complete twoWorkers scripted pair pair_built failingRun _ hrun
  exact ⟨_, _, hrun, rfl, (hsafe.2.2.2.2 _ rfl).2, rfl, rfl⟩

end Forge.Schedule
