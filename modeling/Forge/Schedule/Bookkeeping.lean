import Forge.Schedule.Ledger
import Forge.Schedule.Progress
import Mathlib.Data.Multiset.Filter

/-!
# Bookkeeping shared by the schedulers

Both schedulers send jobs to worker threads and enter their outcomes into a ledger.
`Bookkeeping` ties the ledger to the multiset of outstanding jobs, whatever the threads and
channels do with them: the running nodes are the outstanding ones, the counter counts them,
and the failure records name the failed nodes. Dispatching a ready node and completing an
outstanding job keep it, and completing never runs into an error.
-/

namespace Forge.Schedule

open Forge.Graph Forge.Graph.BuildGraph Forge.Executor

/-- The state an outcome leads to. -/
def statusState : TaskStatus → TaskState
  | .executed => .succeeded
  | .cached => .cached
  | .failed => .failed

/-- What completing a running node does to the graph: the node gets the state of its
outcome, and other nodes are cancelled if they can no longer run. -/
structure Completed (g : BuildGraph Task) (id : ℕ) (status : TaskStatus) (g' : BuildGraph Task) :
    Prop where
  shape : g.SameShape g'
  progress : Progress g'
  state : g'.stateOf id = some (statusState status)
  others : ∀ x, x ≠ id → g'.stateOf x = g.stateOf x ∨
    (g.stateOf x = some .pending ∧ ¬ DepsSuccessful g x ∧ g'.stateOf x = some .cancelled)

/-- A running node may succeed. -/
theorem Progress.completed_withState {g : BuildGraph Task} (h : Progress g) {id : ℕ}
    (hrunning : g.stateOf id = some .running) (status : TaskStatus) (hstatus : status ≠ .failed) :
    Completed g id status (g.withState id (statusState status)) where
  shape := g.sameShape_withState id _
  progress := by
    have hdeps := h.started id .running hrunning (by simp) (by simp)
    refine h.advance hrunning rfl ?_ hdeps
    cases status with
    | executed => rfl
    | cached => rfl
    | failed => contradiction
  state := by rw [g.stateOf_withState (lt_len_of_stateOf hrunning), if_pos rfl]
  others := by
    intro x hx
    left
    rw [g.stateOf_withState (lt_len_of_stateOf hrunning), if_neg hx]

/-- A running node may fail. -/
theorem Progress.completed_failedAt {g g' : BuildGraph Task} (h : Progress g) {id : ℕ}
    (hrunning : g.stateOf id = some .running) (hfail : g.FailedAt id g') :
    Completed g id .failed g' where
  shape := hfail.shape
  progress := h.fail hrunning hfail
  state := hfail.failed
  others := h.fail_kept hrunning hfail

/-- Entering the outcome of a running node succeeds, completes the node, and records
exactly a failure. -/
theorem recordOutcome_completed {ledger : Ledger} (h : Progress ledger.graph) {id : ℕ}
    (hrunning : ledger.graph.stateOf id = some .running) {task : Task}
    (htask : ledger.graph.payloadOf id = some task) (outcome : TaskOutcome)
    (workerId startOffset : ℕ) :
    ∃ ledger', ledger.recordOutcome id outcome workerId startOffset = (.ok (), ledger') ∧
      Completed ledger.graph id outcome.status ledger'.graph ∧
      ledger'.inFlight = ledger.inFlight ∧
      ledger'.failures = ledger.failures ++
        (if outcome.status = .failed then [failureOf task outcome] else []) ∧
      ledger'.timings = ledger.timings ++ [timingOf task id outcome workerId startOffset] := by
  have hid := lt_len_of_stateOf hrunning
  have hnode : (ledger.graph.node id).map (·.payload) = some task := htask
  simp only [Ledger.recordOutcome, hnode]
  cases hstatus : outcome.status with
  | executed =>
    simp only [ledger.graph.setState_eq hid]
    refine ⟨_, rfl, ?_⟩
    exact ⟨h.completed_withState hrunning .executed (by simp), rfl, by simp, rfl⟩
  | cached =>
    simp only [ledger.graph.setState_eq hid]
    refine ⟨_, rfl, ?_⟩
    exact ⟨h.completed_withState hrunning .cached (by simp), rfl, by simp, rfl⟩
  | failed =>
    obtain ⟨g', heq, hfail⟩ := h.wellFormed.markFailed_spec hid
    simp only [heq]
    refine ⟨_, rfl, ?_⟩
    exact ⟨h.completed_failedAt hrunning hfail, rfl, rfl, rfl⟩

section FailedKeys

/-- Collecting over a list is collecting over its indices. -/
theorem filterMap_eq_range {α β : Type*} (f : α → Option β) (l : List α) :
    l.filterMap f = (List.range l.length).filterMap fun i => l[i]?.bind f := by
  induction l with
  | nil => rfl
  | cons a l ih =>
    rw [List.length_cons, List.range_succ_eq_map, List.filterMap_cons, List.filterMap_cons, ih,
      List.filterMap_map]
    simp only [List.getElem?_cons_zero, Option.bind_some]
    rfl

/-- The key a node contributes when it has failed. -/
def failedKeyAt (g : BuildGraph Task) (id : ℕ) : Option (String × String) :=
  if g.stateOf id = some .failed then
    (g.payloadOf id).map fun task => (task.label, task.description)
  else none

/-- The failed keys, collected by identifier. -/
theorem failedKeys_eq (g : BuildGraph Task) :
    failedKeys g = (List.range g.len).filterMap (failedKeyAt g) := by
  have hfilter : failedKeys g = g.nodes.filterMap fun node =>
      if node.state = .failed then some (node.payload.label, node.payload.description) else none := by
    rw [failedKeys, ← List.filterMap_eq_map', List.filterMap_filter]
    simp only [decide_eq_true_eq]
  rw [hfilter, filterMap_eq_range]
  refine List.filterMap_congr fun id _ => ?_
  rw [failedKeyAt, stateOf, payloadOf, BuildGraph.node]
  cases g.nodes[id]? with
  | none => simp
  | some node => simp

/-- Collecting over distinct indices picks up one more key when one index gains a key. -/
theorem filterMap_perm_cons {β : Type*} {f f' : ℕ → Option β} {l : List ℕ} (hnodup : l.Nodup)
    {id : ℕ} (hid : id ∈ l) {key : β} (hold : f id = none) (hnew : f' id = some key)
    (hother : ∀ x, x ≠ id → f' x = f x) : (l.filterMap f').Perm (key :: l.filterMap f) := by
  have hperm := List.perm_cons_erase hid
  have hrest : (l.erase id).filterMap f' = (l.erase id).filterMap f := by
    refine List.filterMap_congr fun x hx => hother x ?_
    exact ((hnodup.mem_erase_iff).mp hx).1
  have hleft := hperm.filterMap f'
  have hright := hperm.filterMap f
  rw [List.filterMap_cons, hnew] at hleft
  rw [List.filterMap_cons, hold] at hright
  rw [hrest] at hleft
  exact hleft.trans (hright.symm.cons key)

end FailedKeys

/-- The ledger agrees with the jobs that are outstanding. -/
structure Bookkeeping (g : BuildGraph Task) (outstanding : Multiset Job) (ledger : Ledger) : Prop where
  shape : g.SameShape ledger.graph
  progress : Progress ledger.graph
  running : ∀ x, ledger.graph.stateOf x = some .running ↔ x ∈ outstanding.map (·.id)
  nodup : (outstanding.map (·.id)).Nodup
  inFlight : ledger.inFlight = outstanding.card
  tasks : ∀ job ∈ outstanding, g.payloadOf job.id = some job.task
  failures : ledger.failureKeys.Perm (failedKeys ledger.graph)

/-- The node of an outstanding job is running. -/
theorem Bookkeeping.running_of_mem {g : BuildGraph Task} {outstanding : Multiset Job} {ledger : Ledger}
    (h : Bookkeeping g outstanding ledger) {job : Job} (hjob : job ∈ outstanding) :
    ledger.graph.stateOf job.id = some .running := (h.running job.id).mpr (Multiset.mem_map_of_mem _ hjob)

/-- At the start nothing is outstanding. -/
theorem Bookkeeping.start {g : BuildGraph Task} (h : g.WellFormed) :
    Bookkeeping g 0 ⟨g.resetStates, 0, [], []⟩ where
  shape := g.sameShape_resetStates
  progress := Progress.reset h
  running := by
    intro x
    rw [stateOf_resetStates]
    split <;> simp
  nodup := by simp
  inFlight := by simp
  tasks := by simp
  failures := by
    have hnone : failedKeys g.resetStates = [] := by
      simp [failedKeys, resetStates, List.filter_map, Function.comp_def]
    rw [hnone]
    rfl

/-- The ledger after a node was sent out. -/
def Ledger.dispatched (ledger : Ledger) (id : ℕ) : Ledger :=
  { ledger with graph := ledger.graph.withState id .running, inFlight := ledger.inFlight + 1 }

/-- Sending out a ready node. -/
theorem Bookkeeping.dispatch {g : BuildGraph Task} {outstanding : Multiset Job} {ledger : Ledger}
    (h : Bookkeeping g outstanding ledger) {job : Job}
    (hpending : ledger.graph.stateOf job.id = some .pending)
    (hdeps : DepsSuccessful ledger.graph job.id)
    (htask : ledger.graph.payloadOf job.id = some job.task) :
    Bookkeeping g (job ::ₘ outstanding) (ledger.dispatched job.id) := by
  have hid := lt_len_of_stateOf hpending
  have hstate : ∀ x, (ledger.dispatched job.id).graph.stateOf x =
      if x = job.id then some .running else ledger.graph.stateOf x := fun x =>
    ledger.graph.stateOf_withState hid .running x
  have hshape := ledger.graph.sameShape_withState job.id .running
  have hfresh : job.id ∉ outstanding.map (·.id) := by
    rw [← h.running, hpending]
    simp
  constructor
  case shape => exact h.shape.trans hshape
  case progress => exact h.progress.advance hpending rfl rfl hdeps
  case running =>
    intro x
    rw [hstate, Multiset.map_cons, Multiset.mem_cons, ← h.running]
    by_cases hx : x = job.id
    · simp [hx]
    · simp [hx]
  case nodup =>
    rw [Multiset.map_cons, Multiset.nodup_cons]
    exact ⟨hfresh, h.nodup⟩
  case inFlight =>
    rw [Multiset.card_cons, ← h.inFlight]
    rfl
  case tasks =>
    intro other hother
    cases Multiset.mem_cons.mp hother with
    | inl heq => rw [heq, ← h.shape.payloadOf, htask]
    | inr hold => exact h.tasks other hold
  case failures =>
    have hkeys : failedKeys (ledger.dispatched job.id).graph = failedKeys ledger.graph := by
      rw [failedKeys_eq, failedKeys_eq, Ledger.dispatched, hshape.len]
      refine List.filterMap_congr fun x _ => ?_
      rw [failedKeyAt, failedKeyAt, hshape.payloadOf, ledger.graph.stateOf_withState hid]
      by_cases hx : x = job.id
      · simp [hx, hpending]
      · simp [hx]
    rw [hkeys]
    exact h.failures

/-- The failed keys of a graph grow by the key of a node that fails, and by nothing else. -/
theorem failedKeys_completed {g g' : BuildGraph Task} {id : ℕ} {status : TaskStatus} {task : Task}
    (hrunning : g.stateOf id = some .running) (htask : g.payloadOf id = some task)
    (h : Completed g id status g') :
    (failedKeys g').Perm
      ((if status = .failed then [(task.label, task.description)] else []) ++ failedKeys g) := by
  have hother : ∀ x, x ≠ id → failedKeyAt g' x = failedKeyAt g x := by
    intro x hx
    rw [failedKeyAt, failedKeyAt, h.shape.payloadOf]
    cases h.others x hx with
    | inl hsame => rw [hsame]
    | inr hcancelled => simp [hcancelled.1, hcancelled.2.2]
  have hold : failedKeyAt g id = none := by simp [failedKeyAt, hrunning]
  rw [failedKeys_eq, failedKeys_eq, h.shape.len]
  by_cases hstatus : status = .failed
  · rw [if_pos hstatus, List.singleton_append]
    refine filterMap_perm_cons List.nodup_range (List.mem_range.mpr (lt_len_of_stateOf hrunning)) hold
      ?_ hother
    rw [failedKeyAt, h.state, h.shape.payloadOf, htask, hstatus]
    rfl
  · rw [if_neg hstatus, List.nil_append]
    refine List.Perm.of_eq (List.filterMap_congr fun x _ => ?_)
    by_cases hx : x = id
    · subst hx
      rw [hold, failedKeyAt, h.state]
      cases status with
      | executed => rfl
      | cached => rfl
      | failed => contradiction
    · exact hother x hx

/-- The ledger with one task less in flight. -/
def Ledger.returned (ledger : Ledger) : Ledger := { ledger with inFlight := ledger.inFlight - 1 }

/-- Completing an outstanding job succeeds and settles its node. -/
theorem Bookkeeping.complete {g : BuildGraph Task} {outstanding : Multiset Job} {ledger : Ledger}
    {job : Job} (h : Bookkeeping g (job ::ₘ outstanding) ledger) (outcome : TaskOutcome)
    (workerId startOffset : ℕ) :
    ∃ ledger', ledger.returned.recordOutcome job.id outcome workerId startOffset = (.ok (), ledger') ∧
      Bookkeeping g outstanding ledger' ∧
      Completed ledger.graph job.id outcome.status ledger'.graph := by
  have hrunning := h.running_of_mem (Multiset.mem_cons_self job outstanding)
  have htask : ledger.graph.payloadOf job.id = some job.task := by
    rw [h.shape.payloadOf]
    exact h.tasks job (Multiset.mem_cons_self _ _)
  have hnodup := h.nodup
  rw [Multiset.map_cons, Multiset.nodup_cons] at hnodup
  have hprogress : Progress ledger.returned.graph := h.progress
  obtain ⟨ledger', heq, hcompleted, hinFlight, hfailures, _⟩ :=
    recordOutcome_completed hprogress hrunning htask outcome workerId startOffset
  refine ⟨ledger', heq, ?_, hcompleted⟩
  constructor
  case shape => exact h.shape.trans hcompleted.shape
  case progress => exact hcompleted.progress
  case running =>
    intro x
    by_cases hx : x = job.id
    · subst hx
      refine iff_of_false ?_ hnodup.1
      rw [hcompleted.state]
      cases outcome.status <;> simp [statusState]
    · have hold := h.running x
      rw [Multiset.map_cons, Multiset.mem_cons, or_iff_right hx] at hold
      rw [← hold]
      cases hcompleted.others x hx with
      | inl hsame => rw [hsame]; rfl
      | inr hcancelled =>
        have hpending : ledger.graph.stateOf x = some .pending := hcancelled.1
        simp [hcancelled.2.2, hpending]
  case nodup => exact hnodup.2
  case inFlight =>
    have hcard := h.inFlight
    rw [Multiset.card_cons] at hcard
    rw [hinFlight, Ledger.returned, hcard]
    rfl
  case tasks => exact fun other hother => h.tasks other (Multiset.mem_cons_of_mem hother)
  case failures =>
    have hkeys := failedKeys_completed hrunning htask hcompleted
    refine List.Perm.trans ?_ hkeys.symm
    have hrecords : ledger'.failureKeys = ledger.failureKeys ++
        (if outcome.status = .failed then [(job.task.label, job.task.description)] else []) := by
      rw [Ledger.failureKeys, hfailures, List.map_append, Ledger.failureKeys, Ledger.returned]
      by_cases hstatus : outcome.status = .failed
      · simp [hstatus, failureOf]
      · simp [hstatus]
    rw [hrecords]
    exact List.perm_append_comm.trans (h.failures.append_left _)

section Dispatchable

/-- The node waits to be dispatched and its dependencies are satisfied. -/
def Dispatchable (g : BuildGraph Task) (id : ℕ) : Prop :=
  g.stateOf id = some .pending ∧ DepsSuccessful g id

/-- Starting a node leaves the other dispatchable nodes dispatchable. -/
theorem Dispatchable.withState {g : BuildGraph Task} {id x : ℕ} (hx : Dispatchable g x)
    (hpending : g.stateOf id = some .pending) (hne : x ≠ id) :
    Dispatchable (g.withState id .running) x := by
  have hid := lt_len_of_stateOf hpending
  refine ⟨?_, hx.2.mono (g.sameShape_withState id _) ?_⟩
  · rw [g.stateOf_withState hid, if_neg hne]
    exact hx.1
  · intro y hy
    have hyne : y ≠ id := fun heq => (not_successful_of_active hpending rfl).1 (heq ▸ hy)
    rw [g.stateOf_withState hid, if_neg hyne]

/-- Completing a node leaves the dispatchable nodes dispatchable. -/
theorem Dispatchable.completed {g g' : BuildGraph Task} {id x : ℕ} {status : TaskStatus}
    (hx : Dispatchable g x) (hrunning : g.stateOf id = some .running)
    (h : Completed g id status g') : Dispatchable g' x := by
  have hne : x ≠ id := by
    intro heq
    rw [heq, Dispatchable, hrunning] at hx
    simp at hx
  refine ⟨?_, hx.2.mono h.shape ?_⟩
  · cases h.others x hne with
    | inl hsame => exact hsame.trans hx.1
    | inr hcancelled => exact absurd hx.2 hcancelled.2.1
  · intro y hy
    have hyne : y ≠ id := fun heq => (not_successful_of_active hrunning rfl).1 (heq ▸ hy)
    cases h.others y hyne with
    | inl hsame => exact hsame
    | inr hcancelled => exact absurd hy (not_successful_of_active hcancelled.1 rfl).1

end Dispatchable

section Finished

/-- The run ended with the summary of its ledger, and every node is settled. -/
def FinishedWith (workers : ℕ) (ledger : Ledger) (result : Except SchedulerError BuildSummary) : Prop :=
  ∃ elapsed, result =
      .ok (.fromGraph ledger.graph elapsed workers ledger.failures ledger.timings) ∧
    (ledger.graph.nodes.all fun node => node.state.isTerminal) = true

/-- When nothing is outstanding and nothing is ready, every node is settled. -/
theorem Bookkeeping.all_isTerminal {g : BuildGraph Task} {outstanding : Multiset Job} {ledger : Ledger}
    (h : Bookkeeping g outstanding ledger) (hzero : ledger.inFlight = 0)
    (hready : ledger.graph.readyNodes = []) :
    (ledger.graph.nodes.all fun node => node.state.isTerminal) = true := by
  have hempty : outstanding = 0 := by
    rw [← Multiset.card_eq_zero, ← h.inFlight]
    exact hzero
  have hidle : ∀ x, ledger.graph.stateOf x ≠ some .running := by
    intro x
    rw [Ne, h.running, hempty]
    simp
  exact (all_isTerminal_iff _).mpr (h.progress.settled hidle hready)

/-- What a finished build owes to its graph: every node is settled, the cancelled nodes are
those behind a failure, every failed node has its record, and the counts add up. -/
structure BuildComplete (g : BuildGraph Task) (summary : BuildSummary) : Prop where
  terminal : ∀ x < g.len, ∃ state, g.stateOf x = some state ∧ state.isTerminal = true
  cancelled : ∀ x, g.stateOf x = some .cancelled ↔
    ∃ dep, Relation.TransGen g.Edge dep x ∧ g.stateOf dep = some .failed
  failures : (summary.failures.map fun record => (record.label, record.description)).Perm (failedKeys g)
  total : summary.total = g.len
  counts : summary.executed + summary.cached + summary.failed + summary.cancelled = summary.total

/-- States of the four kinds a build ends with are counted once each. -/
theorem count_settled (states : List TaskState)
    (h : ∀ state ∈ states, state.isTerminal = true ∧ state ≠ .skipped) :
    states.count .succeeded + states.count .cached + states.count .failed + states.count .cancelled =
      states.length := by
  induction states with
  | nil => rfl
  | cons state states ih =>
    have hrest := ih fun x hx => h x (List.mem_cons_of_mem _ hx)
    have hstate := h state List.mem_cons_self
    simp only [List.count_cons, List.length_cons]
    cases state with
    | succeeded => simp; omega
    | cached => simp; omega
    | failed => simp; omega
    | cancelled => simp; omega
    | skipped => exact absurd rfl hstate.2
    | pending => exact absurd hstate.1 (by decide)
    | ready => exact absurd hstate.1 (by decide)
    | running => exact absurd hstate.1 (by decide)

/-- Once all states are terminal the summary of the ledger is complete. -/
theorem Bookkeeping.complete_summary {g : BuildGraph Task} {outstanding : Multiset Job}
    {ledger : Ledger} (h : Bookkeeping g outstanding ledger)
    (hterminal : ∀ x state, ledger.graph.stateOf x = some state → state.isTerminal = true)
    (elapsed workers : ℕ) :
    BuildComplete ledger.graph
      (.fromGraph ledger.graph elapsed workers ledger.failures ledger.timings) where
  terminal := by
    intro x hx
    obtain ⟨state, hstate⟩ := exists_stateOf hx
    exact ⟨state, hstate, hterminal x state hstate⟩
  cancelled := h.progress.cancelled_iff
  failures := h.failures
  total := rfl
  counts := by
    have hstates : ∀ state ∈ ledger.graph.nodes.map (·.state),
        state.isTerminal = true ∧ state ≠ .skipped := by
      intro state hmem
      obtain ⟨i, hi⟩ := List.mem_iff_getElem?.mp hmem
      have hstate : ledger.graph.stateOf i = some state := by
        rw [List.getElem?_map] at hi
        exact hi
      refine ⟨hterminal i state hstate, fun hskipped => ?_⟩
      exact (h.progress.unused i).2 (hskipped ▸ hstate)
    have hcount := count_settled _ hstates
    rw [List.length_map] at hcount
    exact hcount

end Finished

end Forge.Schedule
