import Forge.Common.KeySort
import Forge.Schedule.SchedulerRuns

/-!
# What is left of the ready list

The ready list is made anew only when it is exhausted. Completions make more nodes ready while
something of an old list is left, and these wait until the rest of the list is dispatched: a node
with a long tail waits behind those with short ones, and a free worker is left idle when the rest
of the list does not fill all of them.
-/

namespace Forge.Schedule

open Forge.Common Forge.Graph Forge.Graph.BuildGraph Forge.Executor

variable {Env : Type*}

/-- What is left of the ready list. -/
def RunState.remaining (s : RunState) : List NodeId := s.ready.drop s.readyIndex

/-- The nodes that became ready since the ready list was made. -/
def RunState.newlyReady (s : RunState) : List NodeId :=
  s.ledger.graph.readyNodes.filter fun id => decide (id ∉ s.remaining)

/-- The length of the longest chain of dependents from a node. -/
def tailOf (g : BuildGraph Task) (id : NodeId) : ℕ := (criticalPathTails g)[id]?.getD 0

/-- The tails do not depend on the states of the nodes. -/
theorem criticalPathTails_resetStates (g : BuildGraph Task) : criticalPathTails g.resetStates = criticalPathTails g := by
  have hlen : g.resetStates.len = g.len := List.length_map _
  have hloop : ∀ fuel indegree ready order,
      topologicalLoop g.resetStates fuel indegree ready order = topologicalLoop g fuel indegree ready order := by
    intro fuel
    induction fuel with
    | zero => exact fun _ _ _ => rfl
    | succ fuel ih =>
      intro indegree ready order
      cases ready with
      | nil => rfl
      | cons id ready => exact ih _ _ _
  have horder : g.resetStates.topologicalOrder = g.topologicalOrder := by
    rw [topologicalOrder, hloop, hlen]
    rfl
  rw [criticalPathTails, horder, hlen]
  rfl

/-- A node is newly ready when it is ready and not in what is left of the list. -/
theorem mem_newlyReady {s : RunState} (hwf : s.ledger.graph.WellFormed) {id : ℕ} :
    id ∈ s.newlyReady ↔ Dispatchable s.ledger.graph id ∧ id ∉ s.remaining := by
  rw [RunState.newlyReady, List.mem_filter, mem_readyNodes hwf, decide_eq_true_eq]
  rfl

/-- A node that is dispatchable after another was started was so before. -/
theorem Dispatchable.of_withState {g : BuildGraph Task} {id x : ℕ} (hid : id < g.len)
    (hx : Dispatchable (g.withState id .running) x) : x ≠ id ∧ Dispatchable g x := by
  obtain ⟨hpending, hdeps⟩ := hx
  rw [g.stateOf_withState hid] at hpending
  have hne : x ≠ id := by
    rintro rfl
    rw [if_pos rfl] at hpending
    exact absurd hpending (by simp)
  rw [if_neg hne] at hpending
  refine ⟨hne, hpending, fun dep hdep => ?_⟩
  obtain ⟨state, hstate, hgood⟩ := hdeps dep hdep
  rw [g.stateOf_withState hid] at hstate
  by_cases hdepId : dep = id
  · rw [if_pos hdepId] at hstate
    rw [← Option.some.inj hstate] at hgood
    exact absurd hgood (by decide)
  · rw [if_neg hdepId] at hstate
    exact ⟨state, hstate, hgood⟩

/-! ## What an event does to the list -/

/-- What an event does to the list: it is made anew when nothing is left of it, its first entry is
dispatched, or it stays as it is while nothing is dispatched. -/
inductive ListStep (scheduler : Scheduler) (s s' : RunState) : RunEvent Env → Prop
  | renewed (effective : ℕ) (hexhausted : s.remaining = []) (hphase : s'.phase = .dispatch effective)
      (hledger : s'.ledger = s.ledger) (hremaining : s'.remaining = scheduler.readyOrder s) :
      ListStep scheduler s s' (.refresh effective)
  | kept (effective : ℕ) (hphase : s'.phase = .dispatch effective) (hledger : s'.ledger = s.ledger)
      (hleft : s.remaining ≠ []) (hremaining : s'.remaining = s.remaining) :
      ListStep scheduler s s' (.refresh effective)
  | dispatched (id workerId startOffset effective : ℕ) (hbefore : s.phase = .dispatch effective)
      (hphase : s'.phase = .dispatch effective) (hroom : s.ledger.inFlight < effective)
      (hpending : s.ledger.graph.stateOf id = some .pending) (hledger : s'.ledger = s.ledger.dispatched id)
      (hremaining : s.remaining = id :: s'.remaining) :
      ListStep scheduler s s' (.dispatch id workerId startOffset)
  | unchanged (e : RunEvent Env) (hphase : s'.phase = s.phase) (hledger : s'.ledger = s.ledger)
      (hremaining : s'.remaining = s.remaining) : ListStep scheduler s s' e
  | other (e : RunEvent Env) (hphase : ∀ effective, s'.phase ≠ .dispatch effective)
      (hremaining : s'.remaining = s.remaining) : ListStep scheduler s s' e

/-- A node is dispatched from the head of what is left of the list, when there is room for it. -/
theorem SchedulerInv.dispatch_list {scheduler : Scheduler} {g : BuildGraph Task} {s s' : RunState}
    (h : SchedulerInv scheduler g s) {id workerId startOffset : ℕ}
    (hstep : Scheduler.dispatch s id workerId startOffset = some s') :
    ∃ effective, s.phase = .dispatch effective ∧ s'.phase = .dispatch effective ∧ s.ledger.inFlight < effective ∧
      s.ledger.graph.stateOf id = some .pending ∧ s'.ledger = s.ledger.dispatched id ∧
      s.remaining = id :: s'.remaining ∧ s'.tail = s.tail := by
  obtain ⟨effective, _, _, ready, hphase, hdrop, hrest, hid, _, _, rfl⟩ := h.dispatch_spec hstep
  have hroom : s.ledger.inFlight < effective := by
    simp only [Scheduler.dispatch, hphase] at hstep
    split at hstep
    · rename_i hguard
      exact hguard.1
    · contradiction
  refine ⟨effective, hphase, hphase, hroom, hid.1, rfl, ?_, rfl⟩
  rw [RunState.remaining, hdrop, ← hrest]
  rfl

/-- Every event does one of these to the list, and keeps the tails. -/
theorem SchedulerInv.listStep {scheduler : Scheduler} {executor : TaskExecutor Env} {g : BuildGraph Task}
    {s s' : RunState} (h : SchedulerInv scheduler g s) {e : RunEvent Env}
    (hstep : (scheduler.machine executor).step s e = some s') :
    ListStep scheduler s s' e ∧ s'.tail = s.tail := by
  have hcompletion : ∀ {s'}, Scheduler.processCompletion s = some s' → ListStep scheduler s s' e ∧ s'.tail = s.tail := by
    intro s' hstep
    obtain ⟨_, _, _, _, _, _, _, _, rfl⟩ := h.processCompletion_spec hstep
    exact ⟨.other e (by simp) rfl, rfl⟩
  cases e with
  | refresh effective =>
    simp only [Scheduler.machine, Scheduler.step, Scheduler.refresh] at hstep
    split at hstep
    · split at hstep
      · split at hstep
        · rename_i hexhausted
          obtain rfl := Option.some.inj hstep
          exact ⟨.renewed effective (List.drop_eq_nil_of_le hexhausted) rfl rfl List.drop_zero, rfl⟩
        · rename_i hleft
          obtain rfl := Option.some.inj hstep
          have hne : s.remaining ≠ [] := fun hnil => hleft (List.drop_eq_nil_iff.mp hnil)
          exact ⟨.kept effective rfl rfl hne rfl, rfl⟩
      · contradiction
    · contradiction
  | dispatch id workerId startOffset =>
    obtain ⟨effective, hbefore, hphase, hroom, hpending, hledger, hremaining, htail⟩ := h.dispatch_list hstep
    exact ⟨.dispatched id workerId startOffset effective hbefore hphase hroom hpending hledger hremaining, htail⟩
  | check elapsed =>
    simp only [Scheduler.machine, Scheduler.step, Scheduler.check] at hstep
    split at hstep
    · split at hstep
      · contradiction
      · split at hstep
        · obtain rfl := Option.some.inj hstep
          exact ⟨.other _ (by simp) rfl, rfl⟩
        · split at hstep <;> obtain rfl := Option.some.inj hstep <;> exact ⟨.other _ (by simp) rfl, rfl⟩
    · contradiction
  | receive =>
    simp only [Scheduler.machine, Scheduler.step] at hstep
    split at hstep
    · exact hcompletion hstep
    · contradiction
  | drain =>
    simp only [Scheduler.machine, Scheduler.step] at hstep
    split at hstep
    · exact hcompletion hstep
    · contradiction
  | drainEnd =>
    simp only [Scheduler.machine, Scheduler.step] at hstep
    split at hstep
    · obtain rfl := Option.some.inj hstep
      exact ⟨.other _ (by simp) rfl, rfl⟩
    · contradiction
  | take thread =>
    obtain ⟨pool, -, rfl⟩ := Option.map_eq_some_iff.mp hstep
    exact ⟨.unchanged _ rfl rfl rfl, rfl⟩
  | finish thread env =>
    obtain ⟨pool, -, rfl⟩ := Option.map_eq_some_iff.mp hstep
    exact ⟨.unchanged _ rfl rfl rfl, rfl⟩

/-- The newly ready nodes depend on the states of the nodes and on what is left of the list. -/
theorem newlyReady_congr {s s' : RunState} (hledger : s'.ledger = s.ledger) (hremaining : s'.remaining = s.remaining) :
    s'.newlyReady = s.newlyReady := by
  rw [RunState.newlyReady, hledger, hremaining, RunState.newlyReady]

/-- A new list has all ready nodes. -/
theorem newlyReady_renewed {scheduler : Scheduler} {s s' : RunState} (hledger : s'.ledger = s.ledger)
    (hremaining : s'.remaining = scheduler.readyOrder s) : s'.newlyReady = [] := by
  rw [RunState.newlyReady, hledger, hremaining, List.filter_eq_nil_iff]
  intro id hid hnew
  exact of_decide_eq_true hnew ((readyOrder_perm scheduler s).mem_iff.mpr hid)

/-- Dispatching makes no node ready. -/
theorem newlyReady_dispatched {s s' : RunState} (hwf : s.ledger.graph.WellFormed)
    (hwf' : s'.ledger.graph.WellFormed) {id : ℕ} (hpending : s.ledger.graph.stateOf id = some .pending)
    (hledger : s'.ledger = s.ledger.dispatched id) (hremaining : s.remaining = id :: s'.remaining) {other : ℕ}
    (hother : other ∈ s'.newlyReady) : other ∈ s.newlyReady := by
  obtain ⟨hready, hnew⟩ := (mem_newlyReady hwf').mp hother
  rw [hledger] at hready
  obtain ⟨hne, hready⟩ := hready.of_withState (lt_len_of_stateOf hpending)
  refine (mem_newlyReady hwf).mpr ⟨hready, ?_⟩
  rw [hremaining, List.mem_cons]
  exact fun hmem => hmem.elim hne hnew

/-! ## Long tails first -/

/-- A node has the longest tail of those that are ready. -/
def LongestTail (g : BuildGraph Task) (s : RunState) (id : NodeId) : Prop :=
  ∀ other ∈ s.ledger.graph.readyNodes, tailOf g other ≤ tailOf g id

/-- When the loop goes on with what is left of the list, no newly ready node has a longer tail than the
entries there is room for. -/
def KeepsPriority (g : BuildGraph Task) (s : RunState) : RunEvent Env → Prop
  | .refresh effective => ∀ other ∈ s.newlyReady, ∀ id ∈ s.remaining.take (effective - s.ledger.inFlight),
      tailOf g other ≤ tailOf g id
  | _ => True

/-- What is left of the list is sorted by tails, and no newly ready node has a longer tail than the entries
that will be dispatched. -/
structure PriorityInv (scheduler : Scheduler) (g : BuildGraph Task) (s : RunState) : Prop where
  inv : SchedulerInv scheduler g s
  tail : s.tail = criticalPathTails g
  sorted : s.remaining.Pairwise fun a b => tailOf g b ≤ tailOf g a
  fresh : ∀ effective, s.phase = .dispatch effective →
    ∀ other ∈ s.newlyReady, ∀ id ∈ s.remaining.take (effective - s.ledger.inFlight), tailOf g other ≤ tailOf g id

/-- With the preference a new list is sorted by tails. -/
theorem readyOrder_sorted {scheduler : Scheduler} (hcritical : scheduler.criticalPath = true) {g : BuildGraph Task}
    {s : RunState} (htail : s.tail = criticalPathTails g) :
    (scheduler.readyOrder s).Pairwise fun a b => tailOf g b ≤ tailOf g a := by
  rw [Scheduler.readyOrder, if_pos hcritical, htail]
  exact pairwise_mergeSort_down (tailOf g) s.ledger.graph.readyNodes

/-- The invariant holds when the loop is entered. -/
theorem PriorityInv.start (scheduler : Scheduler) {g : BuildGraph Task} (h : g.WellFormed) :
    PriorityInv scheduler g (scheduler.start g) where
  inv := SchedulerInv.start scheduler h
  tail := criticalPathTails_resetStates g
  sorted := .nil
  fresh := by
    intro effective hphase
    rw [Scheduler.start] at hphase
    simp only [h.validate_ok] at hphase
    cases hphase

/-- Every event keeps the invariant, when the list is only kept while no newly ready node has a longer tail. -/
theorem PriorityInv.step {scheduler : Scheduler} (hcritical : scheduler.criticalPath = true)
    {executor : TaskExecutor Env} {g : BuildGraph Task} {s : RunState} {e : RunEvent Env} {s' : RunState}
    (h : PriorityInv scheduler g s) (hok : KeepsPriority g s e)
    (hstep : (scheduler.machine executor).step s e = some s') : PriorityInv scheduler g s' := by
  obtain ⟨hlist, htail⟩ := h.inv.listStep hstep
  have hinv := (h.inv.step hstep).1
  have htail := htail.trans h.tail
  cases hlist with
  | renewed effective hexhausted hphase hledger hremaining =>
    refine ⟨hinv, htail, ?_, fun _ _ other hother => ?_⟩
    · rw [hremaining]
      exact readyOrder_sorted hcritical h.tail
    · rw [newlyReady_renewed hledger hremaining] at hother
      exact absurd hother List.not_mem_nil
  | kept effective hphase hledger hleft hremaining =>
    refine ⟨hinv, htail, hremaining ▸ h.sorted, fun effective' hphase' => ?_⟩
    rw [hphase] at hphase'
    obtain rfl := Phase.dispatch.inj hphase'
    rw [newlyReady_congr hledger hremaining, hremaining, hledger]
    exact hok
  | dispatched id workerId startOffset effective hbefore hphase hroom hpending hledger hremaining =>
    have hsorted := h.sorted
    rw [hremaining, List.pairwise_cons] at hsorted
    refine ⟨hinv, htail, hsorted.2, fun effective' hphase' other hother later hlater => ?_⟩
    rw [hphase] at hphase'
    obtain rfl := Phase.dispatch.inj hphase'
    have hother := newlyReady_dispatched h.inv.book.progress.wellFormed hinv.book.progress.wellFormed hpending
      hledger hremaining hother
    refine h.fresh effective hbefore other hother later ?_
    have hcount : effective - s.ledger.inFlight = effective - s'.ledger.inFlight + 1 := by
      rw [hledger]
      show effective - s.ledger.inFlight = effective - (s.ledger.inFlight + 1) + 1
      omega
    rw [hremaining, hcount, List.take_succ_cons]
    exact List.mem_cons_of_mem _ hlater
  | unchanged _ hphase hledger hremaining =>
    refine ⟨hinv, htail, hremaining ▸ h.sorted, ?_⟩
    rw [hphase, newlyReady_congr hledger hremaining, hremaining, hledger]
    exact h.fresh
  | other _ hphase hremaining =>
    exact ⟨hinv, htail, hremaining ▸ h.sorted, fun effective hphase' => absurd hphase' (hphase effective)⟩

/-- With the preference, a run dispatches a node with the longest tail of those that are ready, as long as
the loop never goes on with a list of which there is room for an entry with a shorter tail than that of a
newly ready node. -/
theorem dispatch_longestTail (scheduler : Scheduler) (hcritical : scheduler.criticalPath = true)
    (executor : TaskExecutor Env) (g : BuildGraph Task) (hbuilt : g.Built) (events : List (RunEvent Env))
    (s : RunState) (hrun : (scheduler.machine executor).exec (scheduler.start g) events = some s)
    (hkeeps : (scheduler.machine executor).Along (KeepsPriority g) (scheduler.start g) events)
    (id workerId startOffset : ℕ) (s' : RunState)
    (hstep : (scheduler.machine executor).step s (.dispatch id workerId startOffset) = some s') :
    LongestTail g s id := by
  have hinv : PriorityInv scheduler g s :=
    (scheduler.machine executor).invariant_along (PriorityInv scheduler g) (KeepsPriority g)
      (fun _ _ _ h hok hstep => h.step hcritical hok hstep) (PriorityInv.start scheduler hbuilt.wellFormed) hkeeps hrun
  obtain ⟨effective, hphase, -, hroom, -, -, hremaining, -⟩ := hinv.inv.dispatch_list hstep
  have hsorted := hinv.sorted
  rw [hremaining, List.pairwise_cons] at hsorted
  intro other hother
  by_cases hlisted : other ∈ s.remaining
  · rw [hremaining, List.mem_cons] at hlisted
    rcases hlisted with rfl | hlater
    · exact le_refl _
    · exact hsorted.1 other hlater
  · have hnew : other ∈ s.newlyReady := List.mem_filter.mpr ⟨hother, decide_eq_true hlisted⟩
    refine hinv.fresh effective hphase other hnew id ?_
    obtain ⟨room, hroom⟩ := Nat.exists_eq_add_of_lt hroom
    rw [hremaining, hroom, Nat.add_assoc, Nat.add_sub_cancel_left, List.take_succ_cons]
    exact List.mem_cons_self

/-- A chain of three tasks, and a task of its own. -/
def chainAndTask : BuildGraph Task :=
  let g := (BuildGraph.new.addNode (labelled "a0")).2
  let g := (g.addNode (labelled "a1")).2
  let g := (g.addNode (labelled "a2")).2
  let g := (g.addNode (labelled "b")).2
  let g := (g.addDependency 0 1).2
  (g.addDependency 1 2).2

/-- That graph is reached by the graph operations. -/
theorem chainAndTask_built : chainAndTask.Built :=
  (((((Built.new.addNode _).addNode _).addNode _).addNode _).addDependency 0 1).addDependency 1 2

/-- One worker after the ready list was made. -/
def listMade : RunState :=
  { (Scheduler.new 1).start chainAndTask with ready := [0, 3], readyIndex := 0, phase := .dispatch 1 }

/-- One worker first makes the list. -/
theorem exec_refresh_chainAndTask (events : List (RunEvent TaskOutcome)) :
    ((Scheduler.new 1).machine scripted).exec ((Scheduler.new 1).start chainAndTask) (.refresh 1 :: events) =
      ((Scheduler.new 1).machine scripted).exec listMade events := by
  have hphase : ((Scheduler.new 1).start chainAndTask).phase = .refresh := by
    simp only [Scheduler.start, chainAndTask_built.wellFormed.validate_ok]
  have hready : ((Scheduler.new 1).start chainAndTask).ledger.graph.readyNodes = [0, 3] := by decide
  have hsorted : [0, 3].Pairwise fun a b : ℕ => decide
      (((Scheduler.new 1).start chainAndTask).tail[b]?.getD 0 ≤ ((Scheduler.new 1).start chainAndTask).tail[a]?.getD 0) = true := by
    decide
  have horder : (Scheduler.new 1).readyOrder ((Scheduler.new 1).start chainAndTask) = [0, 3] := by
    rw [Scheduler.readyOrder, if_pos (show (Scheduler.new 1).criticalPath = true from rfl), hready]
    exact List.mergeSort_of_pairwise hsorted
  have hstep : (Scheduler.new 1).refresh ((Scheduler.new 1).start chainAndTask) 1 = some listMade := by
    rw [Scheduler.refresh, hphase, horder]
    rfl
  rw [Machine.exec]
  exact congrArg (Option.bind · _) hstep

/-- The first dispatch takes the head of the longest chain. -/
theorem dispatch_longestTail_chainAndTask : LongestTail chainAndTask listMade 0 := by
  refine dispatch_longestTail (Scheduler.new 1) rfl scripted chainAndTask chainAndTask_built [.refresh 1] listMade
    (exec_refresh_chainAndTask []) ⟨fun other _ id hid => absurd hid List.not_mem_nil, ?_⟩ 0 0 0 _ rfl
  split <;> trivial

/-- A run of one worker in which the first task of the chain is done. -/
def firstDone : List (RunEvent TaskOutcome) :=
  [.refresh 1, .dispatch 0 0 0, .check 1, .take 0, .finish 0 (.executed (labelled "a0")), .receive, .drainEnd, .refresh 1]

/-- After the first task of the chain the task of its own is dispatched before the next of the chain. -/
theorem not_longestTail_chainAndTask :
    ¬ ∀ (scheduler : Scheduler), scheduler.criticalPath = true → ∀ (executor : TaskExecutor TaskOutcome)
      (g : BuildGraph Task), g.Built → ∀ (events : List (RunEvent TaskOutcome)) (s : RunState),
      (scheduler.machine executor).exec (scheduler.start g) events = some s →
      ∀ id workerId startOffset s',
        (scheduler.machine executor).step s (.dispatch id workerId startOffset) = some s' → LongestTail g s id := by
  intro h
  have hsome : (((Scheduler.new 1).machine scripted).exec listMade firstDone.tail).isSome = true := by rfl
  have hrun : ((Scheduler.new 1).machine scripted).exec ((Scheduler.new 1).start chainAndTask) firstDone = some _ :=
    (exec_refresh_chainAndTask firstDone.tail).trans (Option.some_get hsome).symm
  have hready : (Option.get _ hsome).ledger.graph.readyNodes = [1, 3] := by rfl
  have hlongest := h (Scheduler.new 1) rfl scripted chainAndTask chainAndTask_built firstDone _ hrun 3 0 5 _ rfl
  exact absurd (hlongest 1 (hready ▸ List.mem_cons_self)) (by decide)

/-! ## No idle workers -/

/-- The loop blocks: after dispatching it waits for a reply, and there is none yet. -/
def Blocks (scheduler : Scheduler) (s : RunState) (effective : ℕ) : Prop :=
  s.phase = .dispatch effective ∧ (∃ elapsed s', scheduler.check s elapsed = some s' ∧ s'.phase = .receive) ∧
    s.pool.done = []

/-- Either as many tasks are in flight as may be, or there is none that could be. -/
def WorkConserving (s : RunState) (effective : ℕ) : Prop :=
  effective ≤ s.ledger.inFlight ∨ s.ledger.graph.readyNodes = []

/-- When the loop goes on with what is left of the list, this is enough for all workers, or nothing else is
ready. -/
def FillsWorkers (s : RunState) : RunEvent Env → Prop
  | .refresh effective =>
    s.remaining = [] ∨ effective ≤ s.ledger.inFlight + s.remaining.length ∨ s.newlyReady = []
  | _ => True

/-- While nodes are dispatched, what is left of the list is enough for all workers, or nothing else is
ready. -/
structure FillInv (scheduler : Scheduler) (g : BuildGraph Task) (s : RunState) : Prop where
  inv : SchedulerInv scheduler g s
  fresh : ∀ effective, s.phase = .dispatch effective →
    effective ≤ s.ledger.inFlight + s.remaining.length ∨ s.newlyReady = []

/-- The invariant holds when the loop is entered. -/
theorem FillInv.start (scheduler : Scheduler) {g : BuildGraph Task} (h : g.WellFormed) :
    FillInv scheduler g (scheduler.start g) where
  inv := SchedulerInv.start scheduler h
  fresh := by
    intro effective hphase
    rw [Scheduler.start] at hphase
    simp only [h.validate_ok] at hphase
    cases hphase

/-- Every event keeps the invariant, when the list is only kept while it is enough or nothing else is ready. -/
theorem FillInv.step {scheduler : Scheduler} {executor : TaskExecutor Env} {g : BuildGraph Task} {s : RunState}
    {e : RunEvent Env} {s' : RunState} (h : FillInv scheduler g s) (hok : FillsWorkers s e)
    (hstep : (scheduler.machine executor).step s e = some s') : FillInv scheduler g s' := by
  have hinv := (h.inv.step hstep).1
  cases (h.inv.listStep hstep).1 with
  | renewed effective hexhausted hphase hledger hremaining =>
    exact ⟨hinv, fun _ _ => Or.inr (newlyReady_renewed hledger hremaining)⟩
  | kept effective hphase hledger hleft hremaining =>
    refine ⟨hinv, fun effective' hphase' => ?_⟩
    rw [hphase] at hphase'
    obtain rfl := Phase.dispatch.inj hphase'
    rw [newlyReady_congr hledger hremaining, hremaining, hledger]
    exact hok.resolve_left hleft
  | dispatched id workerId startOffset effective hbefore hphase hroom hpending hledger hremaining =>
    refine ⟨hinv, fun effective' hphase' => ?_⟩
    rw [hphase] at hphase'
    obtain rfl := Phase.dispatch.inj hphase'
    rcases h.fresh effective hbefore with henough | hnone
    · rw [hremaining, List.length_cons] at henough
      have hcount : s'.ledger.inFlight = s.ledger.inFlight + 1 := by rw [hledger]; rfl
      exact Or.inl (by omega)
    · refine Or.inr (List.eq_nil_iff_forall_not_mem.mpr fun other hother => ?_)
      have hold := newlyReady_dispatched h.inv.book.progress.wellFormed hinv.book.progress.wellFormed hpending hledger
        hremaining hother
      rw [hnone] at hold
      exact absurd hold List.not_mem_nil
  | unchanged _ hphase hledger hremaining =>
    refine ⟨hinv, ?_⟩
    rw [hphase, newlyReady_congr hledger hremaining, hremaining, hledger]
    exact h.fresh
  | other _ hphase hremaining => exact ⟨hinv, fun effective hphase' => absurd hphase' (hphase effective)⟩

/-- Whenever a run blocks, the workers are busy or nothing is ready, as long as the loop never goes on with a
list that is not enough for all workers while something else is ready. -/
theorem blocks_workConserving (scheduler : Scheduler) (executor : TaskExecutor Env) (g : BuildGraph Task)
    (hbuilt : g.Built) (events : List (RunEvent Env)) (s : RunState)
    (hrun : (scheduler.machine executor).exec (scheduler.start g) events = some s)
    (hfills : (scheduler.machine executor).Along FillsWorkers (scheduler.start g) events) (effective : ℕ)
    (hblocks : Blocks scheduler s effective) : WorkConserving s effective := by
  have hinv : FillInv scheduler g s :=
    (scheduler.machine executor).invariant_along (FillInv scheduler g) FillsWorkers
      (fun _ _ _ h hok hstep => h.step hok hstep) (FillInv.start scheduler hbuilt.wellFormed) hfills hrun
  obtain ⟨hphase, ⟨elapsed, s', hcheck, hreceive⟩, -⟩ := hblocks
  simp only [Scheduler.check, hphase] at hcheck
  by_cases hmore : s.ledger.inFlight < effective ∧ s.readyIndex < s.ready.length
  · rw [if_pos hmore] at hcheck
    contradiction
  rcases Nat.lt_or_ge s.ledger.inFlight effective with hroom | hfull
  · have hexhausted : s.remaining = [] := List.drop_eq_nil_of_le (by omega)
    rcases hinv.fresh effective hphase with henough | hnone
    · rw [hexhausted, List.length_nil] at henough
      exact absurd henough (by omega)
    · refine Or.inr (List.eq_nil_iff_forall_not_mem.mpr fun other hother => ?_)
      have hnew : other ∈ s.newlyReady :=
        List.mem_filter.mpr ⟨hother, decide_eq_true (by rw [hexhausted]; exact List.not_mem_nil)⟩
      rw [hnone] at hnew
      exact absurd hnew List.not_mem_nil
  · exact Or.inl hfull

/-- While the application waits for the library, the second worker is idle because nothing is ready. -/
theorem blocks_workConserving_pair :
    ∃ s, (twoWorkers.machine scripted).exec (twoWorkers.start pair) [.refresh 2, .dispatch 0 0 3] = some s ∧
      WorkConserving s 2 := by
  have hsome : ((twoWorkers.machine scripted).exec (twoWorkers.start pair) [.refresh 2, .dispatch 0 0 3]).isSome = true := by
    rfl
  have hrun := (Option.some_get hsome).symm
  exact ⟨_, hrun, blocks_workConserving twoWorkers scripted pair pair_built _ _ hrun ⟨Or.inl rfl, trivial, trivial⟩ 2
    ⟨rfl, ⟨4, _, rfl, rfl⟩, rfl⟩⟩

/-- Three tasks, and one that depends on the first. -/
def threeAndOne : BuildGraph Task :=
  let g := (BuildGraph.new.addNode (labelled "a")).2
  let g := (g.addNode (labelled "b")).2
  let g := (g.addNode (labelled "c")).2
  let g := (g.addNode (labelled "d")).2
  (g.addDependency 0 3).2

/-- That graph is reached by the graph operations. -/
theorem threeAndOne_built : threeAndOne.Built :=
  ((((Built.new.addNode _).addNode _).addNode _).addNode _).addDependency 0 3

/-- A run of two workers that finish the first two tasks at once. -/
def twoDone : List (RunEvent TaskOutcome) :=
  [.refresh 2, .dispatch 0 0 0, .dispatch 1 1 0, .check 1, .take 0, .take 1, .finish 0 (.executed (labelled "a")),
    .finish 1 (.executed (labelled "b")), .receive, .drain, .drainEnd, .refresh 2, .dispatch 2 1 2]

/-- One worker is left idle while the last task is ready. -/
theorem not_workConserving_threeAndOne :
    ¬ ∀ (scheduler : Scheduler) (executor : TaskExecutor TaskOutcome) (g : BuildGraph Task), g.Built →
      ∀ (events : List (RunEvent TaskOutcome)) (s : RunState),
      (scheduler.machine executor).exec (scheduler.start g) events = some s →
      ∀ effective, Blocks scheduler s effective → WorkConserving s effective := by
  intro h
  have hsome : ((twoWorkers.machine scripted).exec (twoWorkers.start threeAndOne) twoDone).isSome = true := by rfl
  have hrun := (Option.some_get hsome).symm
  have hbusy := h twoWorkers scripted threeAndOne threeAndOne_built twoDone _ hrun 2 ⟨rfl, ⟨3, _, rfl, rfl⟩, rfl⟩
  have hone : (Option.get _ hsome).ledger.inFlight = 1 := by rfl
  have hready : (Option.get _ hsome).ledger.graph.readyNodes = [3] := by rfl
  rcases hbusy with hfull | hnone
  · rw [hone] at hfull
    exact absurd hfull (by decide)
  · rw [hready] at hnone
    exact absurd hnone (by decide)

end Forge.Schedule
