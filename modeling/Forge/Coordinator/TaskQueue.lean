import Mathlib.Data.Int.Notation
import Mathlib.Data.List.Forall2
import Mathlib.Order.Lattice
import Mathlib.Tactic.Common

/-!
# The task queue of the coordinator

The queue is a list of tasks, with those of the highest priority first, and those of the
greatest weight among them. It is sorted again when a task is pushed, by a sort that need not
be stable. A pop takes the first task that is not expired and fits the toolchain, and leaves
the others where they are. The operations hold the queue's lock, so what concurrent callers do
is a sequence of operations.
-/

namespace Forge.Coordinator

/-- A task in the queue. A task without a deadline does not expire. -/
structure QueuedTask (W T : Type*) where
  taskID : String
  toolchain : String
  priority : ℤ
  weight : W
  retryCount : ℤ
  maxRetries : ℤ
  deadline : Option T
deriving DecidableEq

/-- The queue. -/
structure TaskQueue (W T : Type*) where
  tasks : List (QueuedTask W T)
deriving DecidableEq

variable {W T : Type*}

namespace QueuedTask

/-- Whether a task comes before another one. -/
def less [LinearOrder W] (a b : QueuedTask W T) : Bool :=
  if a.priority ≠ b.priority then a.priority > b.priority else a.weight > b.weight

/-- Whether the deadline of a task is over. -/
def expired [LinearOrder T] (now : T) (task : QueuedTask W T) : Bool :=
  match task.deadline with
  | some deadline => deadline < now
  | none => false

/-- Whether a task can be given to a worker with a toolchain. -/
def fits (toolchain : String) (task : QueuedTask W T) : Bool :=
  task.toolchain == toolchain || toolchain == "" || task.toolchain == "*"

/-- Whether a task is taken by a pop. -/
def available [LinearOrder T] (now : T) (toolchain : String) (task : QueuedTask W T) : Bool :=
  !task.expired now && task.fits toolchain

/-- The task for another try, if it has one left. There is no limit when the limit is not positive. -/
def retried (task : QueuedTask W T) : Option (QueuedTask W T) :=
  if task.retryCount ≥ task.maxRetries ∧ task.maxRetries > 0 then none
  else some { task with retryCount := task.retryCount + 1 }

end QueuedTask

namespace TaskQueue

/-- A queue without tasks. -/
def new : TaskQueue W T := ⟨[]⟩

/-- No task comes before one in front of it. -/
def Sorted [LinearOrder W] (q : TaskQueue W T) : Prop := q.tasks.Pairwise fun a b => b.less a = false

/-- What a sort makes of tasks: the same tasks, and none comes before one in front of it. -/
def SortInternal [LinearOrder W] (tasks : List (QueuedTask W T)) (q : TaskQueue W T) : Prop := q.tasks.Perm tasks ∧ q.Sorted

/-- What a push makes of a queue. -/
def Push [LinearOrder W] (q : TaskQueue W T) (task : QueuedTask W T) (q' : TaskQueue W T) : Prop :=
  SortInternal (q.tasks ++ [task]) q'

/-- Take the first task that is not expired and fits the toolchain. -/
def popForToolchain [LinearOrder T] (q : TaskQueue W T) (now : T) (toolchain : String) :
    Except String (QueuedTask W T) × TaskQueue W T :=
  match q.tasks.find? (QueuedTask.available now toolchain) with
  | some task => (.ok task, ⟨q.tasks.eraseP (QueuedTask.available now toolchain)⟩)
  | none => (.error "no matching task in queue", q)

/-- Look at the first task. -/
def peek (q : TaskQueue W T) : Except String (QueuedTask W T) :=
  match q.tasks with
  | [] => .error "queue is empty"
  | task :: _ => .ok task

/-- Drop the first task with a name, and say whether there is one. -/
def cancel (q : TaskQueue W T) (taskID : String) : Bool × TaskQueue W T :=
  match q.tasks.find? (·.taskID == taskID) with
  | some _ => (true, ⟨q.tasks.eraseP (·.taskID == taskID)⟩)
  | none => (false, q)

/-- Push a task for another try, if it has one left, and say whether it has. -/
def RequeueWithBackoff [LinearOrder W] (q : TaskQueue W T) (task : QueuedTask W T) (granted : Bool)
    (q' : TaskQueue W T) : Prop :=
  match task.retried with
  | some again => granted = true ∧ q.Push again q'
  | none => granted = false ∧ q' = q

/-- Drop all tasks. -/
def clear (_ : TaskQueue W T) : TaskQueue W T := ⟨[]⟩

end TaskQueue

/-! ## Taking one task out of a list -/

section First

variable {α β : Type*}

/-- The first element with a property is taken out of a list, and the others stay in their order. -/
theorem exists_split_of_find? {p : α → Bool} {l : List α} {a : α} (h : l.find? p = some a) :
    ∃ before after, l = before ++ a :: after ∧ l.eraseP p = before ++ after ∧ p a = true ∧ ∀ b ∈ before, p b = false := by
  obtain ⟨hp, before, after, rfl, hbefore⟩ := List.find?_eq_some_iff_append.mp h
  have hnone : ∀ b ∈ before, ¬ p b = true := by simpa using hbefore
  refine ⟨before, after, rfl, ?_, hp, fun b hb => by simpa using hnone b hb⟩
  rw [List.eraseP_append_right _ hnone, List.eraseP_cons_of_pos hp]

/-- What is taken out and what stays is what there was. -/
theorem perm_of_find? {p : α → Bool} {l : List α} {a : α} (h : l.find? p = some a) : l.Perm (a :: l.eraseP p) := by
  obtain ⟨before, after, hl, hrest, -⟩ := exists_split_of_find? h
  rw [hrest, hl]
  exact List.perm_middle

end First

/-! ## The order of the tasks -/

/-- A task comes before another one when its priority is higher, or else its weight is greater. -/
theorem QueuedTask.less_iff [LinearOrder W] {a b : QueuedTask W T} :
    a.less b = true ↔ b.priority < a.priority ∨ (a.priority = b.priority ∧ b.weight < a.weight) := by
  rw [QueuedTask.less]
  split
  · rename_i hne
    simp only [gt_iff_lt, decide_eq_true_eq]
    exact ⟨Or.inl, fun h => h.resolve_right fun heq => hne heq.1⟩
  · rename_i heq
    rw [not_not] at heq
    simp only [gt_iff_lt, decide_eq_true_eq, heq, true_and]
    exact (or_iff_right (Int.lt_irrefl _)).symm

namespace TaskQueue

/-- Taking a task out of a queue leaves it sorted. -/
theorem Sorted.eraseP [LinearOrder W] {q : TaskQueue W T} (h : q.Sorted) (p : QueuedTask W T → Bool) : Sorted ⟨q.tasks.eraseP p⟩ :=
  List.Pairwise.sublist List.eraseP_sublist h

/-- A popped task is available, and none of those that stay and are available comes before it. -/
theorem popForToolchain_ok [LinearOrder W] [LinearOrder T] {q q' : TaskQueue W T} (hsorted : q.Sorted) {now : T}
    {toolchain : String} {task : QueuedTask W T} (h : q.popForToolchain now toolchain = (.ok task, q')) :
    task.available now toolchain = true ∧
      ∀ other ∈ q'.tasks, other.available now toolchain = true → other.less task = false := by
  rw [popForToolchain] at h
  cases hfind : q.tasks.find? (QueuedTask.available now toolchain) with
  | none =>
    rw [hfind] at h
    exact absurd (Prod.mk.inj h).1 nofun
  | some first =>
    rw [hfind] at h
    obtain ⟨hfirst, rfl⟩ := Prod.mk.inj h
    obtain rfl := Except.ok.inj hfirst
    obtain ⟨before, after, hl, hrest, havailable, hbefore⟩ := exists_split_of_find? hfind
    refine ⟨havailable, fun other hother hfits => ?_⟩
    rw [Sorted, hl] at hsorted
    rw [hrest] at hother
    rcases List.mem_append.mp hother with hearlier | hlater
    · exact absurd hfits (ne_true_of_eq_false (hbefore other hearlier))
    · exact (List.pairwise_cons.mp (List.pairwise_append.mp hsorted).2.1).1 other hlater

/-- A pop fails when no task is available. -/
theorem popForToolchain_error [LinearOrder T] {q q' : TaskQueue W T} {now : T} {toolchain message : String}
    (h : q.popForToolchain now toolchain = (.error message, q')) :
    ∀ task ∈ q.tasks, task.available now toolchain = false := by
  rw [popForToolchain] at h
  cases hfind : q.tasks.find? (QueuedTask.available now toolchain) with
  | some first =>
    rw [hfind] at h
    exact absurd (Prod.mk.inj h).1 nofun
  | none => exact fun task htask => Bool.not_eq_true _ ▸ List.find?_eq_none.mp hfind task htask

/-- The first task of a sorted queue comes after no other one. -/
theorem peek_ok [LinearOrder W] {q : TaskQueue W T} (hsorted : q.Sorted) {task : QueuedTask W T} (h : q.peek = .ok task) :
    ∀ other ∈ q.tasks, other.less task = false := by
  rw [peek] at h
  rw [Sorted] at hsorted
  cases htasks : q.tasks with
  | nil =>
    rw [htasks] at h
    exact absurd h nofun
  | cons first rest =>
    rw [htasks] at h hsorted
    obtain rfl := Except.ok.inj h
    intro other hother
    rcases List.mem_cons.mp hother with rfl | hlater
    · by_contra hless
      rw [Bool.not_eq_false, QueuedTask.less_iff] at hless
      rcases hless with hpriority | ⟨-, hweight⟩
      · exact Int.lt_irrefl _ hpriority
      · exact lt_irrefl _ hweight
    · exact (List.pairwise_cons.mp hsorted).1 other hlater

end TaskQueue

end Forge.Coordinator
