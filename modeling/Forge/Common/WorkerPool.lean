import Mathlib.Data.List.ReduceOption
import Mathlib.Data.Multiset.AddSub
import Mathlib.Data.Multiset.MapFold

/-!
# A pool of worker threads behind two channels

Jobs are sent into one queue, taken by whichever thread is idle, and come back through a
second queue together with a reply. Which thread acts when is left open. The jobs that are
queued, being worked on or waiting as replies form a multiset that changes only when a job
is sent or a reply is received: no job is lost or answered twice.
-/

namespace Forge.Common

/-- Jobs on their way to the threads, on the threads, and on their way back. -/
structure WorkerPool (J R : Type*) where
  queue : List J
  threads : List (Option J)
  done : List (J × R)

namespace WorkerPool

variable {J R : Type*}

/-- A pool of idle threads. -/
def start (n : ℕ) : WorkerPool J R := ⟨[], List.replicate n none, []⟩

/-- Send a job. -/
def send (pool : WorkerPool J R) (job : J) : WorkerPool J R :=
  { pool with queue := pool.queue ++ [job] }

/-- An idle thread takes the oldest queued job. -/
def take (pool : WorkerPool J R) (thread : ℕ) : Option (WorkerPool J R) :=
  match pool.threads[thread]?, pool.queue with
  | some none, job :: queue =>
    some { pool with queue := queue, threads := pool.threads.set thread (some job) }
  | _, _ => none

/-- A busy thread answers its job. -/
def finish (pool : WorkerPool J R) (thread : ℕ) (reply : J → R) : Option (WorkerPool J R) :=
  match pool.threads[thread]? with
  | some (some job) =>
    some { pool with threads := pool.threads.set thread none, done := pool.done ++ [(job, reply job)] }
  | _ => none

/-- Receive the oldest reply. -/
def receive (pool : WorkerPool J R) : Option ((J × R) × WorkerPool J R) :=
  match pool.done with
  | answer :: done => some (answer, { pool with done := done })
  | [] => none

/-- The jobs that were sent and whose replies were not received. -/
def pending (pool : WorkerPool J R) : Multiset J :=
  (pool.queue : Multiset J) + (pool.threads.reduceOption : Multiset J) +
    (pool.done.map Prod.fst : Multiset J)

/-- A new pool has no jobs. -/
@[simp] theorem pending_start (n : ℕ) : (start n : WorkerPool J R).pending = 0 := by
  have hnone : (List.replicate n (none : Option J)).reduceOption = [] := by
    induction n with
    | zero => rfl
    | succ n ih => rw [List.replicate_succ, List.reduceOption_cons_of_none, ih]
  simp [pending, start, hnone]

/-- Sending adds the job. -/
theorem pending_send (pool : WorkerPool J R) (job : J) :
    (pool.send job).pending = job ::ₘ pool.pending := by
  have hqueue : ((pool.queue ++ [job] : List J) : Multiset J) = job ::ₘ (pool.queue : Multiset J) :=
    Multiset.coe_eq_coe.mpr List.perm_append_comm
  rw [pending, send, hqueue, Multiset.cons_add, Multiset.cons_add, pending]

/-- Filling an idle place adds its job. -/
theorem reduceOption_set_some {threads : List (Option J)} {thread : ℕ} (job : J)
    (h : threads[thread]? = some none) :
    ((threads.set thread (some job)).reduceOption : Multiset J) =
      job ::ₘ (threads.reduceOption : Multiset J) := by
  induction threads generalizing thread with
  | nil => contradiction
  | cons head threads ih =>
    cases thread with
    | zero =>
      have hhead : head = none := by simpa using h
      rw [hhead, List.set_cons_zero, List.reduceOption_cons_of_some, List.reduceOption_cons_of_none]
      rfl
    | succ thread =>
      have hrest := ih (by simpa using h)
      rw [List.set_cons_succ]
      cases head with
      | none => rw [List.reduceOption_cons_of_none, List.reduceOption_cons_of_none, hrest]
      | some other =>
        rw [List.reduceOption_cons_of_some, List.reduceOption_cons_of_some, ← Multiset.cons_coe,
          ← Multiset.cons_coe, hrest, Multiset.cons_swap]

/-- Emptying a busy place takes its job away. -/
theorem reduceOption_set_none {threads : List (Option J)} {thread : ℕ} {job : J}
    (h : threads[thread]? = some (some job)) :
    (threads.reduceOption : Multiset J) =
      job ::ₘ ((threads.set thread none).reduceOption : Multiset J) := by
  have hlt := (List.getElem?_eq_some_iff.mp h).1
  have hidle : (threads.set thread none)[thread]? = some none := by simp [hlt]
  rw [← reduceOption_set_some job hidle, List.set_set]
  congr 2
  apply List.ext_getElem?
  intro i
  by_cases hi : thread = i
  · subst hi
    rw [h, List.getElem?_set_self hlt]
  · rw [List.getElem?_set_ne hi]

/-- Taking a job moves it. -/
theorem pending_take {pool pool' : WorkerPool J R} {thread : ℕ}
    (h : pool.take thread = some pool') : pool'.pending = pool.pending := by
  unfold take at h
  split at h
  · rename_i job queue hidle hqueue
    rw [Option.some.injEq] at h
    subst h
    simp only [pending, hqueue, reduceOption_set_some job hidle, ← Multiset.cons_coe,
      Multiset.cons_add, Multiset.add_cons]
  · contradiction

/-- Answering a job moves it. -/
theorem pending_finish {pool pool' : WorkerPool J R} {thread : ℕ} {reply : J → R}
    (h : pool.finish thread reply = some pool') : pool'.pending = pool.pending := by
  unfold finish at h
  split at h
  · rename_i job hbusy
    rw [Option.some.injEq] at h
    subst h
    have hdone : (((pool.done ++ [(job, reply job)]).map Prod.fst : List J) : Multiset J) =
        job ::ₘ (pool.done.map Prod.fst : Multiset J) := by
      rw [List.map_append]
      exact Multiset.coe_eq_coe.mpr List.perm_append_comm
    simp only [pending, hdone, reduceOption_set_none hbusy, Multiset.cons_add, Multiset.add_cons]
  · contradiction

/-- Receiving a reply takes its job out. -/
theorem pending_receive {pool pool' : WorkerPool J R} {answer : J × R}
    (h : pool.receive = some (answer, pool')) : pool.pending = answer.1 ::ₘ pool'.pending := by
  unfold receive at h
  split at h
  · rename_i first done hdone
    rw [Option.some.injEq, Prod.mk.injEq] at h
    obtain ⟨hanswer, hpool⟩ := h
    subst hanswer hpool
    simp only [pending, hdone, List.map_cons, ← Multiset.cons_coe, Multiset.add_cons]
  · contradiction

/-- The job of a reply that is received was outstanding. -/
theorem mem_pending_of_receive {pool pool' : WorkerPool J R} {answer : J × R}
    (h : pool.receive = some (answer, pool')) : answer.1 ∈ pool.pending := by
  rw [pending_receive h]
  exact Multiset.mem_cons_self _ _

/-- Taking a job leaves the replies alone. -/
theorem done_take {pool pool' : WorkerPool J R} {thread : ℕ}
    (h : pool.take thread = some pool') : pool'.done = pool.done := by
  unfold take at h
  split at h
  · rw [Option.some.injEq] at h
    rw [← h]
  · contradiction

/-- A new reply answers a job of the pool. -/
theorem done_finish {pool pool' : WorkerPool J R} {thread : ℕ} {reply : J → R}
    (h : pool.finish thread reply = some pool') :
    ∃ job, pool'.done = pool.done ++ [(job, reply job)] := by
  unfold finish at h
  split at h
  · rename_i job _
    rw [Option.some.injEq] at h
    exact ⟨job, by rw [← h]⟩
  · contradiction

/-- Receiving takes the oldest reply. -/
theorem done_receive {pool pool' : WorkerPool J R} {answer : J × R}
    (h : pool.receive = some (answer, pool')) : pool.done = answer :: pool'.done := by
  unfold receive at h
  split at h
  · rename_i first done hdone
    rw [Option.some.injEq, Prod.mk.injEq] at h
    rw [hdone, ← h.1, ← h.2]
  · contradiction

end WorkerPool

end Forge.Common
