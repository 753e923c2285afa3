import Forge.Coordinator.TaskQueue
import Mathlib.Data.List.Perm.Basic
import Mathlib.Order.Nat

/-!
# What becomes of the tasks in the queue

A run of the queue is told with an entry for every task in it: from which push the task comes,
and how often it was requeued since. What was pushed and requeued is what is still queued, or
was popped, cancelled or cleared. A caller holds the tasks that it popped and did not give
back. It may give back a task again that it does not hold any more. As long as no caller does
so, a task is in one place only, and the tries that it has left bound how often it is requeued.
-/

namespace Forge.Coordinator

variable {W T : Type*} [LinearOrder W] [LinearOrder T]

/-- A task, the push from which it comes, and how often it was requeued since. -/
structure Entry (W T : Type*) where
  task : QueuedTask W T
  origin : ℕ
  requeues : ℕ
deriving DecidableEq

/-- The queue, and what became of the tasks so far. -/
structure Ledger (W T : Type*) where
  queue : List (Entry W T)
  pushed : List (QueuedTask W T)
  requeued : List (Entry W T)
  popped : List (Entry W T)
  cancelled : List (Entry W T)
  cleared : List (Entry W T)
  held : List (Entry W T)
  givenAgain : List (Entry W T)

/-- A call of the queue. A task is requeued that was popped. -/
inductive Call (W T E : Type*) where
  | push (task : QueuedTask W T)
  | pop (now : T) (toolchain : String)
  | cancel (taskID : String)
  | requeue (entry : E)
  | clear

/-- One call of the queue by itself. -/
def TaskQueue.Step (q : TaskQueue W T) : Call W T (QueuedTask W T) → TaskQueue W T → Prop
  | .push task, q' => q.Push task q'
  | .pop now toolchain, q' => q' = (q.popForToolchain now toolchain).2
  | .cancel taskID, q' => q' = (q.cancel taskID).2
  | .requeue task, q' => ∃ granted, q.RequeueWithBackoff task granted q'
  | .clear, q' => q' = q.clear

namespace Ledger

/-- Before any call. -/
def new : Ledger W T := ⟨[], [], [], [], [], [], [], []⟩

/-- The queue without the entries. -/
def tasks (s : Ledger W T) : TaskQueue W T := ⟨s.queue.map Entry.task⟩

/-- A task that is popped. -/
def pop (s : Ledger W T) (p : Entry W T → Bool) (entry : Entry W T) : Ledger W T :=
  { s with queue := s.queue.eraseP p, popped := entry :: s.popped, held := entry :: s.held }

/-- A task that is cancelled. -/
def cancel (s : Ledger W T) (p : Entry W T → Bool) (entry : Entry W T) : Ledger W T :=
  { s with queue := s.queue.eraseP p, cancelled := entry :: s.cancelled }

/-- A task that is requeued. -/
def requeue (s : Ledger W T) (entry again : Entry W T) (queue : List (Entry W T)) : Ledger W T :=
  { s with
    queue := queue
    requeued := again :: s.requeued
    held := s.held.erase entry
    givenAgain := if entry ∈ s.held then s.givenAgain else entry :: s.givenAgain }

/-- All tasks are dropped. -/
def clear (s : Ledger W T) : Ledger W T := { s with queue := [], cleared := s.queue ++ s.cleared }

end Ledger

/-- The entry of a task for another try. -/
def Entry.again (entry : Entry W T) (task : QueuedTask W T) : Entry W T := ⟨task, entry.origin, entry.requeues + 1⟩

/-- One call, with what becomes of the tasks. -/
inductive Step (s : Ledger W T) : Call W T (Entry W T) → Ledger W T → Prop where
  | push {task : QueuedTask W T} {queue : List (Entry W T)} (hperm : queue.Perm (s.queue ++ [⟨task, s.pushed.length, 0⟩]))
    (hsorted : TaskQueue.Sorted ⟨queue.map Entry.task⟩) :
    Step s (.push task) { s with queue := queue, pushed := s.pushed ++ [task] }
  | pop {now : T} {toolchain : String} {entry : Entry W T}
    (hfind : s.queue.find? (fun e => e.task.available now toolchain) = some entry) :
    Step s (.pop now toolchain) (s.pop (fun e => e.task.available now toolchain) entry)
  | popNone {now : T} {toolchain : String} (hnone : s.queue.find? (fun e => e.task.available now toolchain) = none) :
    Step s (.pop now toolchain) s
  | cancel {taskID : String} {entry : Entry W T} (hfind : s.queue.find? (fun e => e.task.taskID == taskID) = some entry) :
    Step s (.cancel taskID) (s.cancel (fun e => e.task.taskID == taskID) entry)
  | cancelNone {taskID : String} (hnone : s.queue.find? (fun e => e.task.taskID == taskID) = none) :
    Step s (.cancel taskID) s
  | requeue {entry : Entry W T} {task : QueuedTask W T} {queue : List (Entry W T)} (hpopped : entry ∈ s.popped)
    (hretried : entry.task.retried = some task) (hperm : queue.Perm (s.queue ++ [entry.again task]))
    (hsorted : TaskQueue.Sorted ⟨queue.map Entry.task⟩) :
    Step s (.requeue entry) (s.requeue entry (entry.again task) queue)
  | refuse {entry : Entry W T} (hpopped : entry ∈ s.popped) (hnone : entry.task.retried = none) :
    Step s (.requeue entry) s
  | clear : Step s .clear s.clear

/-- The ledger after calls. -/
inductive Run : List (Call W T (Entry W T)) → Ledger W T → Prop where
  | nil : Run [] .new
  | concat {calls : List (Call W T (Entry W T))} {call : Call W T (Entry W T)} {s s' : Ledger W T} (hrun : Run calls s)
    (hstep : Step s call s') : Run (calls ++ [call]) s'

/-! ## The queue without the entries -/

/-- A call with the task of an entry for the entry. -/
def Call.plain : Call W T (Entry W T) → Call W T (QueuedTask W T)
  | .push task => .push task
  | .pop now toolchain => .pop now toolchain
  | .cancel taskID => .cancel taskID
  | .requeue entry => .requeue entry.task
  | .clear => .clear

/-- What a permutation of mapped elements comes from. -/
theorem exists_perm_map {α β : Type*} {f : α → β} {l : List α} {l' : List β} (h : l'.Perm (l.map f)) :
    ∃ l'' : List α, l''.Perm l ∧ l''.map f = l' := by
  have hsame : List.Forall₂ (fun b a => b = f a) (l.map f) l :=
    List.forall₂_map_left_iff.mpr (List.forall₂_same.mpr fun _ _ => rfl)
  obtain ⟨l'', hrelated, hperm⟩ := List.perm_comp_forall₂ h hsame
  rw [← List.forall₂_map_right_iff, List.forall₂_eq_eq_eq] at hrelated
  exact ⟨l'', hperm, hrelated.symm⟩

omit [LinearOrder W] in
/-- A pop takes the task of an entry. -/
theorem popForToolchain_map (queue : List (Entry W T)) (now : T) (toolchain : String) :
    TaskQueue.popForToolchain ⟨queue.map Entry.task⟩ now toolchain =
      match queue.find? fun e => e.task.available now toolchain with
      | some entry => (.ok entry.task, ⟨(queue.eraseP fun e => e.task.available now toolchain).map Entry.task⟩)
      | none => (.error "no matching task in queue", ⟨queue.map Entry.task⟩) := by
  rw [TaskQueue.popForToolchain, List.find?_map, List.eraseP_map, Function.comp_def]
  cases queue.find? fun e => e.task.available now toolchain <;> rfl

omit [LinearOrder W] [LinearOrder T] in
/-- A cancellation drops the task of an entry. -/
theorem cancel_map (queue : List (Entry W T)) (taskID : String) :
    TaskQueue.cancel ⟨queue.map Entry.task⟩ taskID =
      match queue.find? fun e => e.task.taskID == taskID with
      | some _ => (true, ⟨(queue.eraseP fun e => e.task.taskID == taskID).map Entry.task⟩)
      | none => (false, ⟨queue.map Entry.task⟩) := by
  rw [TaskQueue.cancel, List.find?_map, List.eraseP_map, Function.comp_def]
  cases queue.find? fun e => e.task.taskID == taskID <;> rfl

omit [LinearOrder T] in
/-- The tasks of the entries after a sort. -/
theorem sortInternal_map {entries queue : List (Entry W T)} {entry : Entry W T} (hperm : queue.Perm (entries ++ [entry]))
    (hsorted : TaskQueue.Sorted ⟨queue.map Entry.task⟩) :
    TaskQueue.SortInternal (entries.map Entry.task ++ [entry.task]) ⟨queue.map Entry.task⟩ := by
  refine ⟨?_, hsorted⟩
  have htasks := hperm.map Entry.task
  rwa [List.map_append, List.map_singleton] at htasks

/-- A call does to the queue what it does in the ledger. -/
theorem Step.plain {s s' : Ledger W T} {call : Call W T (Entry W T)} (h : Step s call s') :
    s.tasks.Step call.plain s'.tasks := by
  cases h with
  | push hperm hsorted => exact sortInternal_map hperm hsorted
  | @pop now toolchain _ hfind =>
    have hpop := popForToolchain_map s.queue now toolchain
    rw [hfind] at hpop
    exact (congrArg Prod.snd hpop).symm
  | @popNone now toolchain hnone =>
    have hpop := popForToolchain_map s.queue now toolchain
    rw [hnone] at hpop
    exact (congrArg Prod.snd hpop).symm
  | @cancel taskID _ hfind =>
    have hcancel := cancel_map s.queue taskID
    rw [hfind] at hcancel
    exact (congrArg Prod.snd hcancel).symm
  | @cancelNone taskID hnone =>
    have hcancel := cancel_map s.queue taskID
    rw [hnone] at hcancel
    exact (congrArg Prod.snd hcancel).symm
  | requeue _ hretried hperm hsorted =>
    refine ⟨true, ?_⟩
    rw [TaskQueue.RequeueWithBackoff, hretried]
    exact ⟨rfl, sortInternal_map hperm hsorted⟩
  | refuse _ hnone =>
    refine ⟨false, ?_⟩
    rw [TaskQueue.RequeueWithBackoff, hnone]
    exact ⟨rfl, rfl⟩
  | clear => rfl

omit [LinearOrder T] in
/-- The entries of a queue after a sort. -/
theorem exists_sorted_entries {entries : List (Entry W T)} {entry : Entry W T} {q : TaskQueue W T}
    (h : TaskQueue.SortInternal (entries.map Entry.task ++ [entry.task]) q) :
    ∃ queue : List (Entry W T), queue.Perm (entries ++ [entry]) ∧ queue.map Entry.task = q.tasks ∧
      TaskQueue.Sorted ⟨queue.map Entry.task⟩ := by
  obtain ⟨hperm, hsorted⟩ := h
  rw [← List.map_singleton, ← List.map_append] at hperm
  obtain ⟨queue, hqueue, hmap⟩ := exists_perm_map hperm
  exact ⟨queue, hqueue, hmap, by rw [hmap]; exact hsorted⟩

/-- A call of the queue is one in the ledger. -/
theorem exists_step {s : Ledger W T} {call : Call W T (Entry W T)} {q : TaskQueue W T}
    (hpopped : ∀ entry, call = .requeue entry → entry ∈ s.popped) (h : s.tasks.Step call.plain q) :
    ∃ s', Step s call s' ∧ s'.tasks = q := by
  cases call with
  | push task =>
    obtain ⟨queue, hperm, hmap, hsorted⟩ := @exists_sorted_entries _ _ _ _ ⟨task, s.pushed.length, 0⟩ _ h
    exact ⟨_, .push hperm hsorted, congrArg TaskQueue.mk hmap⟩
  | pop now toolchain =>
    cases hfind : s.queue.find? (fun e => e.task.available now toolchain) with
    | some entry => exact ⟨_, .pop hfind, (Step.pop hfind).plain.trans h.symm⟩
    | none => exact ⟨s, .popNone hfind, (Step.popNone hfind).plain.trans h.symm⟩
  | cancel taskID =>
    cases hfind : s.queue.find? (fun e => e.task.taskID == taskID) with
    | some entry => exact ⟨_, .cancel hfind, (Step.cancel hfind).plain.trans h.symm⟩
    | none => exact ⟨s, .cancelNone hfind, (Step.cancelNone hfind).plain.trans h.symm⟩
  | requeue entry =>
    obtain ⟨granted, h⟩ := h
    have hmem := hpopped entry rfl
    rw [TaskQueue.RequeueWithBackoff] at h
    cases hretried : entry.task.retried with
    | some task =>
      rw [hretried] at h
      obtain ⟨queue, hperm, hmap, hsorted⟩ := @exists_sorted_entries _ _ _ _ (entry.again task) _ h.2
      exact ⟨_, .requeue hmem hretried hperm hsorted, congrArg TaskQueue.mk hmap⟩
    | none =>
      rw [hretried] at h
      exact ⟨s, .refuse hmem hretried, h.2.symm⟩
  | clear => exact ⟨_, .clear, h.symm⟩

/-! ## What is kept -/

/-- The entry comes from a pushed task, and was requeued as often as its counter says. -/
def Entry.ComesFrom (entry : Entry W T) (pushed : List (QueuedTask W T)) : Prop :=
  ∃ task, pushed[entry.origin]? = some task ∧
    entry.task = { task with retryCount := task.retryCount + entry.requeues } ∧
    (0 < task.maxRetries → 0 < entry.requeues → task.retryCount + entry.requeues ≤ task.maxRetries)

/-- The queue is sorted, nothing is lost or doubled, and every entry comes from a pushed task. -/
structure Kept (s : Ledger W T) : Prop where
  sorted : s.tasks.Sorted
  conserved : (s.pushed ++ s.requeued.map Entry.task).Perm
    ((s.queue ++ (s.popped ++ (s.cancelled ++ s.cleared))).map Entry.task)
  queued : ∀ entry ∈ s.queue, entry.ComesFrom s.pushed
  popped : ∀ entry ∈ s.popped, entry.ComesFrom s.pushed
  requeued : ∀ entry ∈ s.requeued, entry.ComesFrom s.pushed
  held : s.held ⊆ s.popped

omit [LinearOrder W] [LinearOrder T] in
/-- A later push changes nothing about where an entry comes from. -/
theorem Entry.ComesFrom.concat {entry : Entry W T} {pushed : List (QueuedTask W T)} (h : entry.ComesFrom pushed)
    (task : QueuedTask W T) : entry.ComesFrom (pushed ++ [task]) := by
  obtain ⟨first, hfirst, htask⟩ := h
  refine ⟨first, ?_, htask⟩
  rw [List.getElem?_append_left (List.getElem?_eq_some_iff.mp hfirst).1, hfirst]

omit [LinearOrder W] [LinearOrder T] in
/-- A pushed task comes from itself. -/
theorem Entry.comesFrom_pushed (pushed : List (QueuedTask W T)) (task : QueuedTask W T) :
    Entry.ComesFrom ⟨task, pushed.length, 0⟩ (pushed ++ [task]) := by
  have hcount : task.retryCount + ((0 : ℕ) : ℤ) = task.retryCount := Int.add_zero _
  refine ⟨task, List.getElem?_concat_length, ?_, fun _ h => absurd h (Nat.lt_irrefl 0)⟩
  rw [hcount]

omit [LinearOrder W] [LinearOrder T] in
/-- A requeued task comes from the same push. -/
theorem Entry.ComesFrom.again {entry : Entry W T} {pushed : List (QueuedTask W T)} (h : entry.ComesFrom pushed)
    {task : QueuedTask W T} (hretried : entry.task.retried = some task) : (entry.again task).ComesFrom pushed := by
  obtain ⟨first, hfirst, htask, -⟩ := h
  rw [QueuedTask.retried] at hretried
  split at hretried
  · cases hretried
  · rename_i hleft
    obtain rfl := Option.some.inj hretried
    rw [htask] at hleft ⊢
    have hcount : first.retryCount + (entry.requeues : ℤ) + 1 = first.retryCount + ((entry.requeues + 1 : ℕ) : ℤ) := by
      omega
    refine ⟨first, hfirst, ?_, fun hmax _ => ?_⟩
    · rw [Entry.again, hcount]
    · dsimp only [Entry.again] at hleft ⊢
      omega

/-- What was pushed or requeued grows by a task that is added to the queue. -/
theorem perm_added {α β : Type*} {f : α → β} {added : List β} {queue queue' rest : List α} {a : α}
    (h : added.Perm ((queue ++ rest).map f)) (hqueue : queue'.Perm (queue ++ [a])) :
    (f a :: added).Perm ((queue' ++ rest).map f) := by
  have hfront : (queue' ++ rest).Perm (queue ++ [a] ++ rest) := hqueue.append_right rest
  rw [List.append_assoc, List.singleton_append] at hfront
  exact (h.cons (f a)).trans ((hfront.trans List.perm_middle).map f).symm

/-- What was pushed or requeued stays when a task is taken out of the queue. -/
theorem perm_taken {α β : Type*} {f : α → β} {added : List β} {queue queue' before after : List α} {a : α}
    (h : added.Perm ((queue ++ (before ++ after)).map f)) (hqueue : queue.Perm (a :: queue')) :
    added.Perm ((queue' ++ (before ++ a :: after)).map f) := by
  have hfront : (queue ++ (before ++ after)).Perm (a :: (queue' ++ (before ++ after))) := hqueue.append_right _
  have hback : (queue' ++ (before ++ a :: after)).Perm (a :: (queue' ++ (before ++ after))) :=
    (List.perm_middle.append_left queue').trans List.perm_middle
  exact h.trans ((hfront.trans hback.symm).map f)

omit [LinearOrder T] in
/-- A ledger without calls. -/
theorem kept_new : Kept (Ledger.new : Ledger W T) where
  sorted := List.Pairwise.nil
  conserved := .nil
  queued := fun _ h => absurd h List.not_mem_nil
  popped := fun _ h => absurd h List.not_mem_nil
  requeued := fun _ h => absurd h List.not_mem_nil
  held := List.Subset.refl _

omit [LinearOrder T] in
/-- Taking the first entry with a property out of the queue leaves it sorted. -/
theorem Kept.sorted_eraseP {s : Ledger W T} (h : Kept s) (p : Entry W T → Bool) :
    TaskQueue.Sorted ⟨(s.queue.eraseP p).map Entry.task⟩ :=
  List.Pairwise.sublist (List.eraseP_sublist.map Entry.task) h.sorted

/-- Every call keeps this. -/
theorem Kept.step {s s' : Ledger W T} {call : Call W T (Entry W T)} (h : Kept s) (hstep : Step s call s') : Kept s' := by
  cases hstep with
  | @push task queue hperm hsorted =>
    refine ⟨hsorted, ?_, fun entry hentry => ?_, fun entry hentry => (h.popped entry hentry).concat task,
      fun entry hentry => (h.requeued entry hentry).concat task, h.held⟩
    · dsimp only
      rw [List.append_assoc, List.singleton_append]
      exact List.perm_middle.trans (perm_added h.conserved hperm)
    · rcases List.mem_append.mp (hperm.subset hentry) with hold | hnew
      · exact (h.queued entry hold).concat task
      · rw [List.mem_singleton.mp hnew]
        exact Entry.comesFrom_pushed s.pushed task
  | @pop now toolchain entry hfind =>
    have hentry := h.queued entry (List.mem_of_find?_eq_some hfind)
    exact ⟨h.sorted_eraseP _, @perm_taken _ _ _ _ _ _ [] _ _ h.conserved (perm_of_find? hfind),
      fun e he => h.queued e (List.eraseP_subset he), List.forall_mem_cons.mpr ⟨hentry, h.popped⟩, h.requeued,
      List.cons_subset_cons entry h.held⟩
  | popNone => exact h
  | @cancel taskID entry hfind =>
    exact ⟨h.sorted_eraseP _, perm_taken h.conserved (perm_of_find? hfind),
      fun e he => h.queued e (List.eraseP_subset he), h.popped, h.requeued, h.held⟩
  | cancelNone => exact h
  | @requeue entry task queue hpopped hretried hperm hsorted =>
    have hagain := (h.popped entry hpopped).again hretried
    refine ⟨hsorted, ?_, fun e he => ?_, h.popped, List.forall_mem_cons.mpr ⟨hagain, h.requeued⟩,
      List.Subset.trans List.erase_subset h.held⟩
    · exact List.perm_middle.trans (perm_added h.conserved hperm)
    · rcases List.mem_append.mp (hperm.subset he) with hold | hnew
      · exact h.queued e hold
      · rw [List.mem_singleton.mp hnew]
        exact hagain
  | refuse => exact h
  | clear =>
    have hcleared : (s.queue ++ (s.popped ++ (s.cancelled ++ s.cleared))).Perm
        (s.popped ++ (s.cancelled ++ (s.queue ++ s.cleared))) :=
      (List.perm_append_comm_assoc s.queue s.popped _).trans
        ((List.perm_append_comm_assoc s.queue s.cancelled s.cleared).append_left s.popped)
    exact ⟨List.Pairwise.nil, h.conserved.trans (hcleared.map Entry.task), fun e he => absurd he List.not_mem_nil,
      h.popped, h.requeued, h.held⟩

/-! ## How often a task is requeued -/

/-- Whether an entry comes from a push. -/
def Entry.isOf (origin : ℕ) (entry : Entry W T) : Bool := entry.origin = origin

omit [LinearOrder W] [LinearOrder T] in
/-- An entry is of the push from which it comes. -/
theorem Entry.isOf_iff {origin : ℕ} {entry : Entry W T} : entry.isOf origin = true ↔ entry.origin = origin :=
  decide_eq_true_iff

/-- How often a pushed task was requeued. -/
def Ledger.requeues (s : Ledger W T) (origin : ℕ) : ℕ := s.requeued.countP (Entry.isOf origin)

/-- The entries that are queued or held. -/
def Ledger.inPlay (s : Ledger W T) : List (Entry W T) := s.queue ++ s.held

/-- A pushed task is in one place at most, with the number of times that it was requeued, and was not
requeued more often than it may be. -/
structure Single (s : Ledger W T) (origin : ℕ) : Prop where
  alone : s.inPlay.countP (Entry.isOf origin) ≤ 1
  counted : ∀ entry ∈ s.inPlay, entry.origin = origin → s.requeues origin = entry.requeues
  bounded : ∀ task, s.pushed[origin]? = some task → 0 < task.maxRetries → 0 < s.requeues origin →
    task.retryCount + s.requeues origin ≤ task.maxRetries

omit [LinearOrder W] [LinearOrder T] in
/-- A task stays in one place at most when none of its entries comes into play, and it is not requeued. -/
theorem Single.of_le {s s' : Ledger W T} {origin : ℕ} (h : Single s origin)
    (hcount : s'.inPlay.countP (Entry.isOf origin) ≤ s.inPlay.countP (Entry.isOf origin))
    (hmem : ∀ entry ∈ s'.inPlay, entry.origin = origin → entry ∈ s.inPlay)
    (hpushed : s'.pushed[origin]? = s.pushed[origin]?) (hrequeues : s'.requeues origin = s.requeues origin) :
    Single s' origin := by
  refine ⟨Nat.le_trans hcount h.alone, fun entry hentry horigin => ?_, fun task htask => ?_⟩
  · rw [hrequeues]
    exact h.counted entry (hmem entry hentry horigin) horigin
  · rw [hrequeues]
    rw [hpushed] at htask
    exact h.bounded task htask

omit [LinearOrder W] [LinearOrder T] in
/-- Likewise when entries leave. -/
theorem Single.of_subperm {s s' : Ledger W T} {origin : ℕ} (h : Single s origin) (hplay : s'.inPlay.Subperm s.inPlay)
    (hpushed : s'.pushed = s.pushed) (hrequeued : s'.requeued = s.requeued) : Single s' origin :=
  h.of_le (hplay.countP_le _) (fun _ hentry _ => hplay.subset hentry) (congrArg (·[origin]?) hpushed)
    (congrArg (List.countP (Entry.isOf origin)) hrequeued)

omit [LinearOrder W] [LinearOrder T] in
/-- Likewise when an entry of another task comes into play. -/
theorem Single.of_perm_cons {s s' : Ledger W T} {origin : ℕ} (h : Single s origin) {added : Entry W T}
    (hother : added.origin ≠ origin) {rest : List (Entry W T)} (hplay : s'.inPlay.Perm (added :: rest))
    (hrest : rest.Subperm s.inPlay) (hpushed : s'.pushed[origin]? = s.pushed[origin]?)
    (hrequeues : s'.requeues origin = s.requeues origin) : Single s' origin := by
  have hnot : ¬ Entry.isOf origin added = true := fun hof => hother (Entry.isOf_iff.mp hof)
  refine h.of_le ?_ (fun entry hentry horigin => ?_) hpushed hrequeues
  · rw [hplay.countP_eq, List.countP_cons_of_neg hnot]
    exact hrest.countP_le _
  · rcases List.mem_cons.mp (hplay.subset hentry) with rfl | hold
    · exact absurd horigin hother
    · exact hrest.subset hold

/-- Every task that no caller gave back again is in one place at most. -/
def Tracked (s : Ledger W T) : Prop := ∀ origin, (∀ entry ∈ s.givenAgain, entry.origin ≠ origin) → Single s origin

omit [LinearOrder T] in
/-- An entry comes from an earlier push. -/
theorem Kept.origin_lt {s : Ledger W T} (h : Kept s) {entry : Entry W T} (hentry : entry ∈ s.inPlay ∨ entry ∈ s.requeued) :
    entry.origin < s.pushed.length := by
  have hfrom : entry.ComesFrom s.pushed := by
    rcases hentry with hplay | hrequeued
    · rcases List.mem_append.mp hplay with hqueued | hheld
      · exact h.queued entry hqueued
      · exact h.popped entry (h.held hheld)
    · exact h.requeued entry hrequeued
  obtain ⟨task, htask, -⟩ := hfrom
  exact (List.getElem?_eq_some_iff.mp htask).1

omit [LinearOrder T] in
/-- A task that is pushed is in one place. -/
theorem Tracked.push {s : Ledger W T} (hkept : Kept s) (h : Tracked s) {task : QueuedTask W T} {queue : List (Entry W T)}
    (hperm : queue.Perm (s.queue ++ [⟨task, s.pushed.length, 0⟩])) :
    Tracked { s with queue := queue, pushed := s.pushed ++ [task] } := by
  intro origin hagain
  have hplay : (queue ++ s.held).Perm (⟨task, s.pushed.length, 0⟩ :: s.inPlay) := by
    have hfront := hperm.append_right s.held
    rw [List.append_assoc, List.singleton_append] at hfront
    exact hfront.trans List.perm_middle
  have hold := h origin hagain
  by_cases horigin : s.pushed.length = origin
  · have hnone : s.inPlay.countP (Entry.isOf origin) = 0 := List.countP_eq_zero.mpr fun entry hentry hof =>
      absurd (Entry.isOf_iff.mp hof) (Nat.ne_of_lt (horigin ▸ hkept.origin_lt (Or.inl hentry)))
    have hzero : s.requeues origin = 0 := List.countP_eq_zero.mpr fun entry hentry hof =>
      absurd (Entry.isOf_iff.mp hof) (Nat.ne_of_lt (horigin ▸ hkept.origin_lt (Or.inr hentry)))
    refine ⟨?_, fun entry hentry hof => ?_, fun _ _ _ hpos => absurd hzero (Nat.ne_of_gt hpos)⟩
    · refine Nat.le_of_eq ((hplay.countP_eq _).trans ?_)
      rw [List.countP_cons_of_pos (Entry.isOf_iff.mpr horigin), hnone]
    · rcases List.mem_cons.mp (hplay.subset hentry) with rfl | hmem
      · exact hzero
      · exact absurd hof (Nat.ne_of_lt (horigin ▸ hkept.origin_lt (Or.inl hmem)))
  · refine hold.of_perm_cons horigin hplay (List.Subperm.refl _) ?_ rfl
    dsimp only
    rw [List.getElem?_append]
    split
    · rfl
    · rename_i hge
      rw [List.getElem?_eq_none (l := s.pushed) (Nat.le_of_not_lt hge), List.getElem?_singleton, if_neg (by omega)]

/-- A task that is requeued goes from the caller to the queue. -/
theorem Tracked.requeue {s : Ledger W T} (hkept : Kept s) (h : Tracked s) {entry : Entry W T} {task : QueuedTask W T}
    {queue : List (Entry W T)} (hpopped : entry ∈ s.popped) (hretried : entry.task.retried = some task)
    (hperm : queue.Perm (s.queue ++ [entry.again task])) : Tracked (s.requeue entry (entry.again task) queue) := by
  intro origin hagain
  have hold : Single s origin := by
    refine h origin fun e he => hagain e ?_
    rw [Ledger.requeue]
    split
    · exact he
    · exact List.mem_cons_of_mem _ he
  have hplay : (queue ++ s.held.erase entry).Perm (entry.again task :: (s.queue ++ s.held.erase entry)) := by
    have hfront := hperm.append_right (s.held.erase entry)
    rw [List.append_assoc, List.singleton_append] at hfront
    exact hfront.trans List.perm_middle
  by_cases horigin : entry.origin = origin
  · have hheld : entry ∈ s.held := by
      by_contra hnot
      refine hagain entry ?_ horigin
      rw [Ledger.requeue, if_neg hnot]
      exact List.mem_cons_self
    have hrest : s.inPlay.Perm (entry :: (s.queue ++ s.held.erase entry)) :=
      ((List.perm_cons_erase hheld).append_left s.queue).trans List.perm_middle
    have hcount := hold.counted entry (List.mem_append_right _ hheld) horigin
    have hone := hold.alone
    rw [hrest.countP_eq, List.countP_cons_of_pos (Entry.isOf_iff.mpr horigin)] at hone
    have hagainOf : (entry.again task).isOf origin = true := Entry.isOf_iff.mpr horigin
    have hnone : (s.queue ++ s.held.erase entry).countP (Entry.isOf origin) = 0 := by omega
    have hmore : (s.requeue entry (entry.again task) queue).requeues origin = (entry.again task).requeues := by
      rw [Ledger.requeues, Ledger.requeue]
      dsimp only
      rw [List.countP_cons_of_pos hagainOf, ← Ledger.requeues, hcount]
      rfl
    refine ⟨?_, fun e he hof => ?_, fun first hfirst hmax hpos => ?_⟩
    · refine Nat.le_of_eq ((hplay.countP_eq _).trans ?_)
      rw [List.countP_cons_of_pos hagainOf, hnone]
    · rcases List.mem_cons.mp (hplay.subset he) with rfl | hmem
      · exact hmore
      · exact absurd (Entry.isOf_iff.mpr hof) (List.countP_eq_zero.mp hnone e hmem)
    · rw [hmore] at hpos ⊢
      obtain ⟨first', hfirst', -, hbound⟩ := (hkept.popped entry hpopped).again hretried
      have hsame : s.pushed[entry.origin]? = some first := horigin ▸ hfirst
      obtain rfl := Option.some.inj (hsame.symm.trans hfirst')
      exact hbound hmax hpos
  · have hother : (entry.again task).origin ≠ origin := horigin
    refine hold.of_perm_cons hother hplay (List.erase_sublist.append_left s.queue).subperm rfl ?_
    rw [Ledger.requeues, Ledger.requeue]
    dsimp only
    have hnot : ¬ (entry.again task).isOf origin = true := fun hof => horigin (Entry.isOf_iff.mp hof)
    rw [List.countP_cons_of_neg hnot, Ledger.requeues]

/-- Every call keeps the tasks in one place. -/
theorem Tracked.step {s s' : Ledger W T} {call : Call W T (Entry W T)} (hkept : Kept s) (h : Tracked s)
    (hstep : Step s call s') : Tracked s' := by
  cases hstep with
  | push hperm hsorted => exact h.push hkept hperm
  | @pop now toolchain entry hfind =>
    intro origin hagain
    refine (h origin hagain).of_subperm (List.Perm.subperm ?_) rfl rfl
    exact List.perm_middle.trans ((perm_of_find? hfind).symm.append_right s.held)
  | popNone => exact h
  | @cancel taskID entry hfind =>
    intro origin hagain
    exact (h origin hagain).of_subperm (List.eraseP_sublist.append_right s.held).subperm rfl rfl
  | cancelNone => exact h
  | requeue hpopped hretried hperm hsorted => exact h.requeue hkept hpopped hretried hperm
  | refuse => exact h
  | clear =>
    intro origin hagain
    exact (h origin hagain).of_subperm (List.sublist_append_right s.queue s.held).subperm rfl rfl

/-- After every run this is kept. -/
theorem Run.kept {calls : List (Call W T (Entry W T))} {s : Ledger W T} (h : Run calls s) : Kept s ∧ Tracked s := by
  induction h with
  | nil =>
    refine ⟨kept_new, fun origin _ => ⟨Nat.zero_le 1, fun _ hentry => absurd hentry List.not_mem_nil, ?_⟩⟩
    exact fun task htask => absurd htask nofun
  | concat hrun hstep ih =>
    obtain ⟨hkept, htracked⟩ := ih
    exact ⟨hkept.step hstep, htracked.step hkept hstep⟩

/-- A task with two tries. -/
def buildTask : QueuedTask ℕ ℕ := ⟨"build", "go", 1, 0, 0, 2, none⟩

/-- The task is pushed, popped and requeued. -/
theorem run_requeue : Run [.push buildTask, .pop 0 "go", .requeue ⟨buildTask, 0, 0⟩]
    ⟨[⟨{ buildTask with retryCount := 1 }, 0, 1⟩], [buildTask], [⟨{ buildTask with retryCount := 1 }, 0, 1⟩],
      [⟨buildTask, 0, 0⟩], [], [], [], []⟩ := by
  have hpush : Run [.push buildTask] ⟨[⟨buildTask, 0, 0⟩], [buildTask], [], [], [], [], [], []⟩ :=
    .concat .nil (.push (.refl _) (List.pairwise_singleton _ _))
  have hpop : Run [.push buildTask, .pop 0 "go"]
      ⟨[], [buildTask], [], [⟨buildTask, 0, 0⟩], [], [], [⟨buildTask, 0, 0⟩], []⟩ := .concat hpush (.pop rfl)
  exact .concat hpop (.requeue List.mem_cons_self rfl (.refl _) (List.pairwise_singleton _ _))

end Forge.Coordinator
