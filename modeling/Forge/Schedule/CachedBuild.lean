import Forge.Cache.ToolRuns
import Forge.Schedule.Agreement

/-!
# Builds through a shared local cache

The worker threads of the scheduler execute their tasks through one cache. A thread asks the cache
when it takes a task, and stores the fingerprint after its task was executed; in between other
threads ask and store. A build that succeeded leaves the fingerprints of all its tasks on disk, so
that the next build over the same tasks, in a new process, executes none of them.
-/

namespace Forge.Schedule

open Forge.Cache Forge.Common Forge.Graph Forge.Graph.BuildGraph Forge.Executor

/-- A run of the scheduler with the cache of its threads: what each of them was told by the cache for
the task it works on, and the tasks that were executed, the last one first. -/
structure CachedRun where
  run : RunState
  cache : LocalCache
  hits : List Bool
  executions : List Task

/-- The events of such a run. -/
inductive CachedEvent (Env : Type*) where
  | scheduler (e : RunEvent TaskOutcome)
  | take (thread : ℕ) (io : CacheIo)
  | finish (thread : ℕ) (env : Env) (io : CacheIo)

/-- Whether an event belongs to the scheduling thread. -/
def RunEvent.ofScheduler {Env : Type*} : RunEvent Env → Bool
  | .take _ | .finish _ _ => false
  | _ => true

section Machine

variable {Env : Type*} (codec : RecordCodec) (inner : TaskExecutor Env) (scheduler : Scheduler)

/-- Ask the cache about the task that a thread takes. -/
def CachedRun.take (s : CachedRun) (thread : ℕ) (io : CacheIo) : Option CachedRun :=
  match s.run.pool.queue with
  | [] => none
  | job :: _ =>
    (scheduler.step scripted s.run (.take thread)).map fun run =>
      let (hit, cache) := askCache codec s.cache job.task io
      { s with run := run, cache := cache, hits := s.hits.set thread hit }

/-- Report a task that the cache had, or execute it and store its fingerprint. -/
def CachedRun.finish (s : CachedRun) (thread : ℕ) (env : Env) (io : CacheIo) : Option CachedRun :=
  match s.run.pool.threads[thread]? with
  | some (some job) =>
    if s.hits[thread]? = some true then
      (scheduler.step scripted s.run (.finish thread (.cached job.task))).map fun run => { s with run := run }
    else
      let result := inner.execute job.task env
      (scheduler.step scripted s.run (.finish thread (result.outcome job.task))).map fun run =>
        { s with
          run := run
          cache := match result with
            | .ok outcome => storeOutcome codec s.cache job.task outcome io
            | _ => s.cache
          executions := job.task :: s.executions }
  | _ => none

/-- Builds through a cache as a machine. -/
def cachedBuild : Machine CachedRun (CachedEvent Env) where
  step s e := match e with
    | .scheduler e =>
      if e.ofScheduler then (scheduler.step scripted s.run e).map fun run => { s with run := run } else none
    | .take thread io => s.take codec scheduler thread io
    | .finish thread env io => s.finish codec inner scheduler thread env io

/-- A build in a new process, on a directory of records. -/
def CachedRun.start (g : BuildGraph Task) (disk : Directory) (process tmpCounter : ℕ) : CachedRun :=
  ⟨scheduler.start g, .new disk process tmpCounter, List.replicate scheduler.workers false, []⟩

/-- What a thread does with a task, when nothing else happens in between, is to execute it through the cache. -/
theorem executeThrough_eq (cache : LocalCache) (task : Task) (env : Env) (io : CacheIo) :
    executeThrough codec inner cache task env io =
      let (hit, cache) := askCache codec cache task io
      if hit then (.ok (.cached task), cache)
      else (inner.execute task env, match inner.execute task env with
        | .ok outcome => storeOutcome codec cache task outcome io
        | _ => cache) := by
  rw [executeThrough]
  cases (askCache codec cache task io).1 <;> cases inner.execute task env <;> rfl

end Machine

/-! ## What a cache holds -/

section Holds

variable (codec : RecordCodec)

/-- The file of a key has a fingerprint. -/
def Stored (cache : LocalCache) (entry : Executor.CacheEntry) : Prop :=
  ∃ bytes record, cache.disk.lookup (fingerprintPath entry.key) = some bytes ∧
    codec.fromSlice bytes = some record ∧ record.fingerprint = entry.fingerprint

/-- What the memory has for a key is what its file has, if there is one. -/
def MemoryAgrees (cache : LocalCache) : Prop :=
  ∀ key record bytes, cache.memory.lookup key = some record → cache.disk.lookup (fingerprintPath key) = some bytes →
    ∃ record', codec.fromSlice bytes = some record' ∧ record'.fingerprint = record.fingerprint

/-- The fingerprint of a task is stored. -/
def StoredTask (cache : LocalCache) (task : Task) : Prop := ∀ entry, task.cache = some entry → Stored codec cache entry

variable {codec} {cache : LocalCache}

/-- A found record has the fingerprint that is in the file. -/
theorem MemoryAgrees.stored_of_readRecord (hagrees : MemoryAgrees codec cache) {entry : Executor.CacheEntry}
    {fault : Option String} {record : FingerprintRecord}
    (hfound : (cache.readRecord codec entry.key fault).1 = .ok (some record))
    (hfingerprint : record.fingerprint = entry.fingerprint) : Stored codec cache entry := by
  cases hfile : cache.disk.lookup (fingerprintPath entry.key) with
  | none =>
    simp [LocalCache.readRecord, hfile] at hfound
  | some bytes =>
    rcases cache.readRecord_found codec hfound with hheld | ⟨bytes', hfile', hread⟩
    · obtain ⟨record', hread, hsame⟩ := hagrees entry.key record bytes hheld hfile
      exact ⟨bytes, record', hfile, hread, hsame.trans hfingerprint⟩
    · exact ⟨bytes', record, hfile', hread, hfingerprint⟩

/-- Asking keeps the agreement. -/
theorem MemoryAgrees.askCache (hagrees : MemoryAgrees codec cache) (task : Task) (io : CacheIo) :
    MemoryAgrees codec (Cache.askCache codec cache task io).2 := by
  intro key record bytes hheld hfile
  rw [Workshop.askCache_disk] at hfile
  cases hentry : task.cache with
  | none =>
    simp only [Cache.askCache, hentry] at hheld
    exact hagrees key record bytes hheld hfile
  | some entry =>
    have hmemory : (cache.matchesFingerprint codec entry.key entry.fingerprint io.readFault).2.memory =
        (cache.readRecord codec entry.key io.readFault).2.memory := by
      rw [LocalCache.matchesFingerprint]
      split
      · split <;> simp_all
      · simp_all
    simp only [Cache.askCache, hentry, hmemory] at hheld
    rcases cache.readRecord_memory codec hheld with hheld | ⟨rfl, hfound⟩
    · exact hagrees key record bytes hheld hfile
    · have hstored : Stored codec cache ⟨entry.key, record.fingerprint⟩ := hagrees.stored_of_readRecord hfound rfl
      obtain ⟨bytes', record', hfile', hread, hsame⟩ := hstored
      rw [hfile, Option.some.injEq] at hfile'
      subst hfile'
      exact ⟨record', hread, hsame⟩

/-- What the cache says it has is stored. -/
theorem MemoryAgrees.storedTask_of_hit (hagrees : MemoryAgrees codec cache) {task : Task} {io : CacheIo}
    (hhit : (Cache.askCache codec cache task io).1 = true) : StoredTask codec cache task := by
  intro entry hentry
  simp only [Cache.askCache, hentry, LocalCache.matchesFingerprint_iff, LocalCache.get] at hhit
  split at hhit
  · rename_i record cache' hread
    exact hagrees.stored_of_readRecord (by rw [hread]) (Option.some.inj hhit)
  · cases hhit

/-- What is stored the cache says it has, if the file can be read. -/
theorem MemoryAgrees.hit_of_stored (hagrees : MemoryAgrees codec cache) {task : Task} {io : CacheIo}
    {entry : Executor.CacheEntry} (hentry : task.cache = some entry) (hstored : Stored codec cache entry)
    (hfault : io.readFault = none) : (Cache.askCache codec cache task io).1 = true := by
  obtain ⟨bytes, record, hfile, hread, hsame⟩ := hstored
  simp only [Cache.askCache, hentry, LocalCache.matchesFingerprint_iff, hfault, LocalCache.get_eq, hfile,
    Option.bind_some]
  cases hheld : cache.memory.lookup entry.key with
  | none => simp [hread, hsame]
  | some held =>
    obtain ⟨record', hread', hsame'⟩ := hagrees entry.key held bytes hheld hfile
    rw [hread, Option.some.injEq] at hread'
    subst hread'
    simp [← hsame', hsame]

/-- Storing a fingerprint keeps the agreement, and what is stored for other keys or is the same. -/
theorem MemoryAgrees.put (hagrees : MemoryAgrees codec cache) (entry : Executor.CacheEntry) (now : UInt64) :
    MemoryAgrees codec (cache.put codec entry.key entry.fingerprint now none).2 ∧
      ∀ other : Executor.CacheEntry, (Stored codec cache other ∨ other.key = entry.key) →
        (other.key = entry.key → other.fingerprint = entry.fingerprint) →
          Stored codec (cache.put codec entry.key entry.fingerprint now none).2 other := by
  obtain ⟨-, hmemory, hdisk⟩ := cache.putWithArtifact_ok codec entry.key entry.fingerprint none now
  constructor
  · intro key record bytes hheld hfile
    rw [LocalCache.put, hmemory] at hheld
    rw [LocalCache.put, hdisk] at hfile
    by_cases hkey : key = entry.key
    · subst hkey
      rw [AList.lookup_insert, Option.some.injEq] at hheld
      rw [if_pos rfl, Option.some.injEq] at hfile
      subst hheld hfile
      exact ⟨_, codec.fromSlice_toVec _, rfl⟩
    · rw [AList.lookup_insert_ne hkey] at hheld
      rw [if_neg hkey] at hfile
      exact hagrees key record bytes hheld hfile
  · intro other hother hagree
    by_cases hkey : other.key = entry.key
    · exact ⟨_, _, by rw [LocalCache.put, hdisk, if_pos hkey], codec.fromSlice_toVec _, (hagree hkey).symm⟩
    · obtain ⟨bytes, record, hfile, hrest⟩ := hother.resolve_right hkey
      exact ⟨bytes, record, by rw [LocalCache.put, hdisk, if_neg hkey, hfile], hrest⟩

/-- Storing the outcome of a task is storing its fingerprint, or does nothing if it was not executed. -/
theorem storeOutcome_cases (task : Task) (outcome : TaskOutcome) {io : CacheIo} (hfault : io.putFault = none) :
    (∃ entry, task.cache = some entry ∧ storeOutcome codec cache task outcome io =
      (cache.put codec entry.key entry.fingerprint io.now none).2) ∨
    (storeOutcome codec cache task outcome io = cache ∧ (outcome.status = .executed → task.cache = none)) := by
  unfold storeOutcome
  split
  · rename_i entry hstatus hentry
    have hok := (cache.putWithArtifact_ok codec entry.key entry.fingerprint none io.now).1
    refine .inl ⟨entry, hentry, ?_⟩
    rw [hfault]
    split
    · simp_all
    · simp_all [LocalCache.put]
  · rename_i hnone
    refine .inr ⟨rfl, fun hstatus => ?_⟩
    cases hentry : task.cache with
    | none => rfl
    | some entry => exact absurd hentry (hnone entry hstatus)

/-- Storing the outcome of a task keeps the agreement. -/
theorem MemoryAgrees.storeOutcome (hagrees : MemoryAgrees codec cache) (task : Task) (outcome : TaskOutcome)
    {io : CacheIo} (hfault : io.putFault = none) :
    MemoryAgrees codec (Cache.storeOutcome codec cache task outcome io) := by
  rcases storeOutcome_cases task outcome hfault with ⟨entry, -, heq⟩ | ⟨heq, -⟩
  · exact heq ▸ (hagrees.put entry io.now).1
  · rwa [heq]

/-- The fingerprint of a task that was executed is stored. -/
theorem MemoryAgrees.storedTask_storeOutcome (hagrees : MemoryAgrees codec cache) {task : Task} {outcome : TaskOutcome}
    {io : CacheIo} (hfault : io.putFault = none) (hexecuted : outcome.status = .executed) :
    StoredTask codec (Cache.storeOutcome codec cache task outcome io) task := by
  intro other hother
  rcases storeOutcome_cases task outcome hfault with ⟨entry, hentry, heq⟩ | ⟨-, hnone⟩
  · rw [hentry, Option.some.injEq] at hother
    subst hother
    exact heq ▸ (hagrees.put entry io.now).2 entry (.inr rfl) fun _ => rfl
  · rw [hnone hexecuted] at hother
    cases hother

/-- What is stored for tasks with the same fingerprints for the same keys stays stored. -/
theorem MemoryAgrees.storedTask_kept (hagrees : MemoryAgrees codec cache) {task other : Task} {outcome : TaskOutcome}
    {io : CacheIo} (hfault : io.putFault = none) (hstored : StoredTask codec cache other)
    (hsame : ∀ entry entry', task.cache = some entry → other.cache = some entry' → entry'.key = entry.key →
      entry'.fingerprint = entry.fingerprint) :
    StoredTask codec (Cache.storeOutcome codec cache task outcome io) other := by
  intro entry' hentry'
  rcases storeOutcome_cases task outcome hfault with ⟨entry, hentry, heq⟩ | ⟨heq, -⟩
  · exact heq ▸ (hagrees.put entry io.now).2 entry' (.inl (hstored entry' hentry')) (hsame entry entry' hentry hentry')
  · rw [heq]
    exact hstored entry' hentry'

end Holds

/-! ## Threads -/

section Threads

variable {J R : Type*} {pool pool' : WorkerPool J R} {thread : ℕ}

/-- A thread takes the first job of the queue. -/
theorem take_cases (htake : pool.take thread = some pool') : ∃ job queue, pool.threads[thread]? = some none ∧
    pool.queue = job :: queue ∧ pool' = { pool with queue := queue, threads := pool.threads.set thread (some job) } := by
  unfold WorkerPool.take at htake
  split at htake
  · rename_i job queue hidle hqueue
    exact ⟨job, queue, hidle, hqueue, (Option.some.inj htake).symm⟩
  · cases htake

/-- A thread answers the job it works on. -/
theorem finish_cases {reply : J → R} (hfinish : pool.finish thread reply = some pool') : ∃ job,
    pool.threads[thread]? = some (some job) ∧
      pool' = { pool with threads := pool.threads.set thread none, done := pool.done ++ [(job, reply job)] } := by
  unfold WorkerPool.finish at hfinish
  split at hfinish
  · rename_i job hbusy
    exact ⟨job, hbusy, (Option.some.inj hfinish).symm⟩
  · cases hfinish

/-- The job that a thread works on is outstanding. -/
theorem mem_pending_of_thread {job : J} (hthread : pool.threads[thread]? = some (some job)) : job ∈ pool.pending := by
  have hmem : job ∈ pool.threads.reduceOption := by
    rw [List.reduceOption_mem_iff]
    exact List.mem_of_getElem? hthread
  simp only [WorkerPool.pending, Multiset.mem_add, Multiset.mem_coe]
  exact .inl (.inr hmem)

end Threads

/-! ## What the outcomes of tasks lead to -/

/-- The replies on their way and the settled nodes are as good as the outcomes of the tasks. -/
structure Settles (Good : Task → TaskStatus → Prop) (s : RunState) : Prop where
  replies : ∀ answer ∈ s.pool.done, Good answer.1.task answer.2.status
  settled : ∀ x task state, s.ledger.graph.payloadOf x = some task → s.ledger.graph.stateOf x = some state →
    state.isTerminal = true → state ≠ .cancelled → ∃ status, state = statusState status ∧ Good task status

section Settling

variable {Good Good' : Task → TaskStatus → Prop} {scheduler : Scheduler} {g : BuildGraph Task} {s s' : RunState}

/-- At the start nothing is settled and no reply is on its way. -/
theorem Settles.start (scheduler : Scheduler) (g : BuildGraph Task) : Settles Good (scheduler.start g) where
  replies := by simp [Scheduler.start, WorkerPool.start]
  settled := by
    intro x task state _ hstate hterminal
    simp only [Scheduler.start, stateOf_resetStates] at hstate
    split at hstate
    · rw [← Option.some.inj hstate] at hterminal
      cases hterminal
    · cases hstate

/-- What is good can become less. -/
theorem Settles.mono (h : Settles Good s) (hmono : ∀ task status, Good task status → Good' task status) :
    Settles Good' s where
  replies := fun answer hanswer => hmono _ _ (h.replies answer hanswer)
  settled := by
    intro x task state htask hstate hterminal hcancelled
    obtain ⟨status, heq, hgood⟩ := h.settled x task state htask hstate hterminal hcancelled
    exact ⟨status, heq, hmono _ _ hgood⟩

/-- The scheduling thread only takes replies, and settles the nodes they are for. -/
theorem Settles.scheduling (h : Settles Good s) (hinv : SchedulerInv scheduler g s) {e : RunEvent TaskOutcome}
    (hof : e.ofScheduler = true) (hstep : scheduler.step scripted s e = some s') :
    Settles Good s' ∧ s'.pool.threads = s.pool.threads := by
  have hcompletion : ∀ {s'}, Scheduler.processCompletion s = some s' →
      Settles Good s' ∧ s'.pool.threads = s.pool.threads := by
    intro s' hstep
    obtain ⟨job, outcome, pool, ledger, hreceive, _, _, hcompleted, rfl⟩ := hinv.processCompletion_spec hstep
    have hdone := WorkerPool.done_receive hreceive
    have hpayload := hinv.book.tasks job (WorkerPool.mem_pending_of_receive hreceive)
    have hthreads : pool.threads = s.pool.threads := by
      unfold WorkerPool.receive at hreceive
      split at hreceive
      · cases hreceive
        rfl
      · cases hreceive
    refine ⟨⟨fun answer hanswer => h.replies answer (by rw [hdone]; exact List.mem_cons_of_mem _ hanswer), ?_⟩, hthreads⟩
    intro x task state htask hstate hterminal hcancelled
    rw [hcompleted.shape.payloadOf] at htask
    by_cases hx : x = job.id
    · subst hx
      rw [← hinv.book.shape.payloadOf, htask, Option.some.injEq] at hpayload
      rw [hcompleted.state, Option.some.injEq] at hstate
      refine ⟨outcome.status, hstate.symm, ?_⟩
      rw [hpayload]
      exact h.replies (job, outcome) (by rw [hdone]; exact List.mem_cons_self)
    · rcases hcompleted.others x hx with hsame | ⟨-, -, hother⟩
      · rw [hsame] at hstate
        exact h.settled x task state htask hstate hterminal hcancelled
      · rw [hother, Option.some.injEq] at hstate
        exact absurd hstate.symm hcancelled
  cases e with
  | refresh effective =>
    obtain ⟨_, hledger, hpool⟩ := hinv.refresh hstep
    exact ⟨⟨by rw [hpool]; exact h.replies, by rw [hledger]; exact h.settled⟩, by rw [hpool]⟩
  | dispatch id workerId startOffset =>
    obtain ⟨_, _, _, _, _, _, _, hid, _, _, rfl⟩ := hinv.dispatch_spec hstep
    refine ⟨⟨h.replies, ?_⟩, rfl⟩
    intro x task state htask hstate hterminal hcancelled
    simp only [Ledger.dispatched] at htask hstate
    rw [(s.ledger.graph.sameShape_withState id .running).payloadOf] at htask
    rw [s.ledger.graph.stateOf_withState (lt_len_of_stateOf hid.1)] at hstate
    split at hstate
    · rw [← Option.some.inj hstate] at hterminal
      cases hterminal
    · exact h.settled x task state htask hstate hterminal hcancelled
  | check elapsed =>
    obtain ⟨_, hledger, hpool⟩ := hinv.check hstep
    exact ⟨⟨by rw [hpool]; exact h.replies, by rw [hledger]; exact h.settled⟩, by rw [hpool]⟩
  | receive =>
    simp only [Scheduler.step] at hstep
    split at hstep
    · exact hcompletion hstep
    · cases hstep
  | drain =>
    simp only [Scheduler.step] at hstep
    split at hstep
    · exact hcompletion hstep
    · cases hstep
  | drainEnd =>
    simp only [Scheduler.step] at hstep
    split at hstep
    · cases hstep
      exact ⟨⟨h.replies, h.settled⟩, rfl⟩
    · cases hstep
  | take thread => cases hof
  | finish thread outcome => cases hof

/-- A thread that takes a task settles nothing. -/
theorem Settles.take (h : Settles Good s) {thread : ℕ} (hstep : scheduler.step scripted s (.take thread) = some s') :
    Settles Good s' ∧ ∃ job queue, s.pool.queue = job :: queue ∧
      s'.pool.threads = s.pool.threads.set thread (some job) := by
  obtain ⟨pool, htake, rfl⟩ := Option.map_eq_some_iff.mp hstep
  obtain ⟨job, queue, _, hqueue, rfl⟩ := take_cases htake
  exact ⟨⟨h.replies, h.settled⟩, job, queue, hqueue, rfl⟩

/-- A thread that answers adds a reply. -/
theorem Settles.finish (h : Settles Good s) {thread : ℕ} {outcome : TaskOutcome} {job : Job}
    (hthread : s.pool.threads[thread]? = some (some job))
    (hstep : scheduler.step scripted s (.finish thread outcome) = some s') (hgood : Good job.task outcome.status) :
    Settles Good s' ∧ s'.pool.threads = s.pool.threads.set thread none := by
  obtain ⟨pool, hfinish, rfl⟩ := Option.map_eq_some_iff.mp hstep
  obtain ⟨job', hthread', rfl⟩ := finish_cases hfinish
  rw [hthread, Option.some.injEq, Option.some.injEq] at hthread'
  subst hthread'
  refine ⟨⟨fun answer hanswer => ?_, h.settled⟩, rfl⟩
  rcases List.mem_append.mp hanswer with hold | hnew
  · exact h.replies answer hold
  · rw [List.mem_singleton.mp hnew]
    exact hgood

/-- A node that is settled in a build without a failure was not cancelled. -/
theorem not_cancelled {g : BuildGraph Task} (hprogress : Progress g) (hnone : ∀ x, g.stateOf x ≠ some .failed) (x : ℕ) :
    g.stateOf x ≠ some .cancelled := by
  induction x using hprogress.wellFormed.edge_wf.induction with
  | _ x ih =>
    intro hcancelled
    obtain ⟨dep, hdep, state, hstate, hbad⟩ := (hprogress.cancelled x (lt_len_of_stateOf hcancelled)).mp hcancelled
    cases state with
    | failed => exact hnone dep hstate
    | cancelled => exact ih dep (hprogress.wellFormed.mem_depList_iff.mp hdep) hstate
    | _ => cases hbad

end Settling

/-! ## Builds one after another -/

/-- The fault that a store meets in an event. -/
def CachedEvent.putFault {Env : Type*} : CachedEvent Env → Option PutFault
  | .finish _ _ io => io.putFault
  | _ => none

/-- The fault that a lookup meets in an event. -/
def CachedEvent.readFault {Env : Type*} : CachedEvent Env → Option String
  | .take _ io => io.readFault
  | _ => none

/-- A task of a graph. -/
def TaskOf (g : BuildGraph Task) (task : Task) : Prop := ∃ x, g.payloadOf x = some task

/-- Tasks of a graph with one key have one fingerprint. -/
def Consistent (g : BuildGraph Task) : Prop :=
  ∀ task task', TaskOf g task → TaskOf g task' → ∀ entry entry', task.cache = some entry → task'.cache = some entry' →
    entry'.key = entry.key → entry'.fingerprint = entry.fingerprint

/-- What holds during a build, when the fingerprints of the old tasks are stored from the start. -/
structure BuildInv (codec : RecordCodec) (scheduler : Scheduler) (g : BuildGraph Task) (Old : Task → Prop)
    (s : CachedRun) : Prop where
  inv : SchedulerInv scheduler g s.run
  agrees : MemoryAgrees codec s.cache
  length : s.hits.length = s.run.pool.threads.length
  hits : ∀ (thread : ℕ) (job : Job), s.run.pool.threads[thread]? = some (some job) → s.hits[thread]? = some true →
    StoredTask codec s.cache job.task
  old : ∀ task, TaskOf g task → Old task → ∃ entry, task.cache = some entry ∧ Stored codec s.cache entry
  oldHits : ∀ (thread : ℕ) (job : Job), s.run.pool.threads[thread]? = some (some job) → Old job.task →
    s.hits[thread]? = some true
  settles : Settles (fun task status => (status ≠ .failed → TaskOf g task ∧ StoredTask codec s.cache task) ∧
    (Old task → status = .cached)) s.run
  executions : ∀ task ∈ s.executions, ¬ Old task

section Builds

variable {Env : Type*} {codec : RecordCodec} {inner : TaskExecutor Env} {scheduler : Scheduler} {g : BuildGraph Task}
  {Old : Task → Prop} {s t : CachedRun}

/-- It holds at the start. -/
theorem BuildInv.start (hwf : g.WellFormed) (disk : Directory) (process tmpCounter : ℕ)
    (hold : ∀ task, TaskOf g task → Old task → ∃ entry, task.cache = some entry ∧
      Stored codec (.new disk process tmpCounter) entry) :
    BuildInv codec scheduler g Old (.start scheduler g disk process tmpCounter) where
  inv := SchedulerInv.start scheduler hwf
  agrees := by
    intro key record bytes hheld
    simp [CachedRun.start, LocalCache.new] at hheld
  length := by simp [CachedRun.start, Scheduler.start, WorkerPool.start]
  hits := by simp [CachedRun.start, Scheduler.start, WorkerPool.start, List.getElem?_replicate]
  old := hold
  oldHits := by simp [CachedRun.start, Scheduler.start, WorkerPool.start, List.getElem?_replicate]
  settles := Settles.start scheduler g
  executions := nofun

/-- What is stored depends on the directory only. -/
theorem Stored.congr {cache cache' : LocalCache} {entry : Executor.CacheEntry} (h : Stored codec cache entry)
    (hdisk : cache'.disk = cache.disk) : Stored codec cache' entry := by
  rw [Stored, hdisk]
  exact h

/-- An event of the scheduler keeps the invariant of its runs. -/
theorem schedulerInv_step {s s' : RunState} (h : SchedulerInv scheduler g s) {e : RunEvent TaskOutcome}
    (hstep : scheduler.step scripted s e = some s') : SchedulerInv scheduler g s' :=
  (h.step (show (scheduler.machine scripted).step s e = some s' from hstep)).1

/-- An event of the scheduling thread. -/
theorem BuildInv.scheduling (h : BuildInv codec scheduler g Old s) {e : RunEvent TaskOutcome}
    (hof : e.ofScheduler = true) {run : RunState} (hstep : scheduler.step scripted s.run e = some run) :
    BuildInv codec scheduler g Old { s with run := run } := by
  obtain ⟨hsettles, hthreads⟩ := h.settles.scheduling h.inv hof hstep
  refine ⟨schedulerInv_step h.inv hstep, h.agrees, ?_, ?_, h.old, ?_, hsettles, h.executions⟩
  · simpa only [hthreads] using h.length
  · simpa only [hthreads] using h.hits
  · simpa only [hthreads] using h.oldHits

/-- A thread takes a task. -/
theorem BuildInv.take (h : BuildInv codec scheduler g Old s) {thread : ℕ} {io : CacheIo}
    (hread : io.readFault = none ∨ ∀ task, ¬ Old task) (hstep : s.take codec scheduler thread io = some t) :
    BuildInv codec scheduler g Old t := by
  unfold CachedRun.take at hstep
  split at hstep
  · cases hstep
  · rename_i job rest hqueue
    obtain ⟨run, hrun, rfl⟩ := Option.map_eq_some_iff.mp hstep
    obtain ⟨hsettles, job', queue, hqueue', hthreads⟩ := h.settles.take hrun
    rw [hqueue, List.cons.injEq] at hqueue'
    obtain ⟨rfl, rfl⟩ := hqueue'
    have hdisk := Workshop.askCache_disk codec s.cache job.task io
    have htask : TaskOf g job.task := by
      refine ⟨job.id, h.inv.book.tasks job ?_⟩
      simp [WorkerPool.pending, hqueue]
    have hkept : ∀ {task}, StoredTask codec s.cache task → StoredTask codec (askCache codec s.cache job.task io).2 task :=
      fun hstored entry hentry => (hstored entry hentry).congr hdisk
    constructor
    case inv => exact schedulerInv_step h.inv hrun
    case agrees => exact h.agrees.askCache job.task io
    case length => simpa [hthreads] using h.length
    case hits =>
      intro k other hother hhit
      simp only [hthreads, List.getElem?_set] at hother hhit
      split at hother
      · rename_i hk
        subst hk
        split at hother
        · simp only [Option.some.injEq] at hother
          subst hother
          simp only [if_true] at hhit
          split at hhit
          · exact hkept (h.agrees.storedTask_of_hit (Option.some.inj hhit))
          · cases hhit
        · cases hother
      · rename_i hk
        rw [if_neg hk] at hhit
        exact hkept (h.hits k other hother hhit)
    case old =>
      intro task hof hold
      obtain ⟨entry, hentry, hstored⟩ := h.old task hof hold
      exact ⟨entry, hentry, hstored.congr hdisk⟩
    case oldHits =>
      intro k other hother hold
      simp only [hthreads, List.getElem?_set] at hother ⊢
      split at hother
      · rename_i hk
        subst hk
        split at hother
        · rename_i hlt
          simp only [Option.some.injEq] at hother
          subst hother
          obtain ⟨entry, hentry, hstored⟩ := h.old job.task htask hold
          rw [if_pos rfl, if_pos (h.length ▸ hlt), h.agrees.hit_of_stored hentry hstored
            (hread.resolve_right fun hnone => hnone _ hold)]
        · cases hother
      · rename_i hk
        rw [if_neg hk]
        exact h.oldHits k other hother hold
    case settles =>
      apply hsettles.mono
      intro task status hgood
      exact ⟨fun hne => ⟨(hgood.1 hne).1, hkept (hgood.1 hne).2⟩, hgood.2⟩
    case executions => exact h.executions

/-- A thread that has answered works on nothing, and the others go on. -/
theorem of_getElem?_set_none {threads : List (Option Job)} {thread k : ℕ} {job : Job}
    (h : (threads.set thread none)[k]? = some (some job)) : k ≠ thread ∧ threads[k]? = some (some job) := by
  rw [List.getElem?_set] at h
  split at h
  · split at h <;> cases h
  · rename_i hk
    exact ⟨Ne.symm hk, h⟩

/-- A thread reports a task. -/
theorem BuildInv.finish (hkeys : Consistent g)
    (hinner : ∀ task env outcome, inner.execute task env = .ok outcome → outcome.status ≠ .cached)
    (h : BuildInv codec scheduler g Old s) {thread : ℕ} {env : Env} {io : CacheIo} (hstore : io.putFault = none)
    (hstep : s.finish codec inner scheduler thread env io = some t) : BuildInv codec scheduler g Old t := by
  unfold CachedRun.finish at hstep
  split at hstep
  · rename_i job hthread
    have htask : TaskOf g job.task := ⟨job.id, h.inv.book.tasks job (mem_pending_of_thread hthread)⟩
    split at hstep
    · -- the cache had the fingerprint
      rename_i hhit
      obtain ⟨run, hrun, rfl⟩ := Option.map_eq_some_iff.mp hstep
      obtain ⟨hsettles, hthreads⟩ := h.settles.finish hthread hrun
        ⟨fun _ => ⟨htask, h.hits thread job hthread hhit⟩, fun _ => rfl⟩
      refine ⟨schedulerInv_step h.inv hrun, h.agrees, ?_, ?_, h.old, ?_, hsettles, h.executions⟩
      · simpa [hthreads] using h.length
      · intro k other hother
        simp only [hthreads] at hother
        exact h.hits k other (of_getElem?_set_none hother).2
      · intro k other hother
        simp only [hthreads] at hother
        exact h.oldHits k other (of_getElem?_set_none hother).2
    · -- the task was executed
      rename_i hmiss
      obtain ⟨run, hrun, rfl⟩ := Option.map_eq_some_iff.mp hstep
      set cache : LocalCache := match inner.execute job.task env with
        | .ok outcome => storeOutcome codec s.cache job.task outcome io
        | _ => s.cache with hcache
      have hnew : ¬ Old job.task := fun hold => hmiss (h.oldHits thread job hthread hold)
      have hafter : MemoryAgrees codec cache ∧
          (∀ task, TaskOf g task → StoredTask codec s.cache task → StoredTask codec cache task) ∧
            (((inner.execute job.task env).outcome job.task).status ≠ .failed → StoredTask codec cache job.task) := by
        cases hresult : inner.execute job.task env with
        | ok outcome =>
          simp only [hresult] at hcache
          rw [hcache]
          refine ⟨h.agrees.storeOutcome _ _ hstore, fun task hof hstored => ?_, fun hne => ?_⟩
          · exact h.agrees.storedTask_kept hstore hstored (hkeys job.task task htask hof)
          · apply h.agrees.storedTask_storeOutcome hstore
            have hcached := hinner job.task env outcome hresult
            simp only [ExecResult.outcome] at hne
            revert hne hcached
            cases outcome.status <;> simp
        | err error =>
          simp only [hresult] at hcache
          rw [hcache]
          exact ⟨h.agrees, fun _ _ hstored => hstored, fun hne => absurd rfl hne⟩
        | panic message =>
          simp only [hresult] at hcache
          rw [hcache]
          exact ⟨h.agrees, fun _ _ hstored => hstored, fun hne => absurd rfl hne⟩
      obtain ⟨hagrees, hkept, hstored⟩ := hafter
      have hgood : Settles (fun task status => (status ≠ .failed → TaskOf g task ∧ StoredTask codec cache task) ∧
          (Old task → status = .cached)) s.run := by
        apply h.settles.mono
        intro task status hgood
        exact ⟨fun hne => ⟨(hgood.1 hne).1, hkept task (hgood.1 hne).1 (hgood.1 hne).2⟩, hgood.2⟩
      obtain ⟨hsettles, hthreads⟩ := hgood.finish hthread hrun
        ⟨fun hne => ⟨htask, hstored hne⟩, fun hold => absurd hold hnew⟩
      refine ⟨schedulerInv_step h.inv hrun, hagrees, ?_, ?_, ?_, ?_, hsettles, ?_⟩
      · simpa [hthreads] using h.length
      · intro k other hother hhit
        simp only [hthreads] at hother
        have hbusy := (of_getElem?_set_none hother).2
        exact hkept _ ⟨other.id, h.inv.book.tasks other (mem_pending_of_thread hbusy)⟩ (h.hits k other hbusy hhit)
      · intro task hof hold
        obtain ⟨entry, hentry, hstored⟩ := h.old task hof hold
        refine ⟨entry, hentry, hkept task hof ?_ entry hentry⟩
        intro entry' hentry'
        rw [hentry, Option.some.injEq] at hentry'
        exact hentry' ▸ hstored
      · intro k other hother
        simp only [hthreads] at hother
        exact h.oldHits k other (of_getElem?_set_none hother).2
      · intro task hmem
        rcases List.mem_cons.mp hmem with rfl | hmem
        · exact hnew
        · exact h.executions task hmem
  · cases hstep

/-- It holds throughout a build in which no store fails, and no lookup, if there are old tasks. -/
theorem BuildInv.exec (hkeys : Consistent g)
    (hinner : ∀ task env outcome, inner.execute task env = .ok outcome → outcome.status ≠ .cached)
    (h : BuildInv codec scheduler g Old s) {events : List (CachedEvent Env)}
    (hok : ∀ e ∈ events, e.putFault = none ∧ (e.readFault = none ∨ ∀ task, ¬ Old task))
    (hrun : (cachedBuild codec inner scheduler).exec s events = some t) : BuildInv codec scheduler g Old t := by
  refine Machine.invariant_along _ (BuildInv codec scheduler g Old)
    (fun _ e => e.putFault = none ∧ (e.readFault = none ∨ ∀ task, ¬ Old task)) ?_ h (Machine.along_of_forall _ hok) hrun
  intro s e t h hok hstep
  cases e with
  | scheduler e =>
    simp only [cachedBuild] at hstep
    split at hstep
    · rename_i hof
      obtain ⟨run, hrun, rfl⟩ := Option.map_eq_some_iff.mp hstep
      exact h.scheduling hof hrun
    · cases hstep
  | take thread io => exact h.take hok.2 hstep
  | finish thread env io => exact h.finish hkeys hinner hok.1 hstep

/-- A build that succeeded has stored the fingerprints of all its tasks. -/
theorem BuildInv.storedTask_of_succeeded (h : BuildInv codec scheduler g Old s) {summary : BuildSummary}
    (hfinished : s.run.phase = .finished (.ok summary)) (hsucceeded : summary.succeeded = true) {task : Task}
    (htask : TaskOf g task) : StoredTask codec s.cache task := by
  have hphase := h.inv.phase
  rw [hfinished] at hphase
  obtain ⟨elapsed, heq, hterminal⟩ := hphase
  rw [all_isTerminal_iff] at hterminal
  have hnone : ∀ x, s.run.ledger.graph.stateOf x ≠ some .failed := by
    intro x hfailed
    cases heq
    simp only [BuildSummary.succeeded, BuildSummary.fromGraph, beq_iff_eq, List.count_eq_zero] at hsucceeded
    obtain ⟨node, hnode, hstate⟩ := Option.map_eq_some_iff.mp hfailed
    exact hsucceeded (List.mem_map.mpr ⟨node, List.mem_of_getElem? hnode, hstate⟩)
  obtain ⟨x, hx⟩ := htask
  rw [← h.inv.book.shape.payloadOf] at hx
  obtain ⟨node, hnode, -⟩ := Option.map_eq_some_iff.mp hx
  have hstate : s.run.ledger.graph.stateOf x = some node.state := by rw [stateOf, hnode, Option.map_some]
  obtain ⟨status, hstatus, hgood⟩ := h.settles.settled x task node.state hx hstate (hterminal x _ hstate)
    (fun hcancelled => not_cancelled h.inv.book.progress hnone x (hcancelled ▸ hstate))
  refine (hgood.1 ?_).2
  rintro rfl
  rw [hstatus] at hstate
  exact hnone x hstate

/-- A build whose tasks are all old finds all of them. -/
theorem BuildInv.all_cached (h : BuildInv codec scheduler g Old s) (hold : ∀ task, TaskOf g task → Old task)
    {result : Except SchedulerError BuildSummary} (hfinished : s.run.phase = .finished result) :
    ∃ summary, result = .ok summary ∧ summary.total = g.len ∧ summary.cached = g.len ∧ summary.executed = 0 ∧
      summary.failed = 0 ∧ summary.cancelled = 0 := by
  have hphase := h.inv.phase
  rw [hfinished] at hphase
  obtain ⟨elapsed, rfl, hterminal⟩ := hphase
  rw [all_isTerminal_iff] at hterminal
  have hsettled : ∀ x state, s.run.ledger.graph.stateOf x = some state → state ≠ .cancelled → state = .cached := by
    intro x state hstate hne
    obtain ⟨node, hnode, -⟩ := Option.map_eq_some_iff.mp hstate
    have hpayload : s.run.ledger.graph.payloadOf x = some node.payload := by rw [payloadOf, hnode, Option.map_some]
    obtain ⟨status, rfl, hgood⟩ := h.settles.settled x node.payload state hpayload hstate (hterminal x _ hstate) hne
    rw [hgood.2 (hold _ ⟨x, h.inv.book.shape.payloadOf x ▸ hpayload⟩)]
    rfl
  have hnone : ∀ x, s.run.ledger.graph.stateOf x ≠ some .failed := by
    intro x hfailed
    cases hsettled x .failed hfailed (fun h => by cases h)
  have hall : s.run.ledger.graph.nodes.map (·.state) = List.replicate s.run.ledger.graph.len .cached := by
    rw [List.eq_replicate_iff]
    refine ⟨List.length_map _, fun state hmem => ?_⟩
    obtain ⟨node, hnode, rfl⟩ := List.mem_map.mp hmem
    obtain ⟨x, hx⟩ := List.mem_iff_getElem?.mp hnode
    have hstate : s.run.ledger.graph.stateOf x = some node.state := by rw [stateOf, BuildGraph.node, hx, Option.map_some]
    exact hsettled x _ hstate fun hcancelled =>
      not_cancelled h.inv.book.progress hnone x (hcancelled ▸ hstate)
  have hlen := h.inv.book.shape.len
  refine ⟨_, rfl, hlen, ?_⟩
  simp [BuildSummary.fromGraph, hall, hlen, List.count_replicate]

/-- A task of a graph has the key and the fingerprint of this one. -/
def Known (g : BuildGraph Task) (task : Task) : Prop :=
  ∃ entry task', task.cache = some entry ∧ TaskOf g task' ∧ task'.cache = some entry

/-- Two builds on one directory, the second one in a new process: the first succeeded, no store failed and no lookup
of the second. -/
structure Rebuilt (codec : RecordCodec) (inner inner' : TaskExecutor Env) (scheduler scheduler' : Scheduler)
    (g g' : BuildGraph Task) (disk : Directory) (first second : List (CachedEvent Env)) (s t : CachedRun) : Prop where
  firstRun : ∃ process tmpCounter,
    (cachedBuild codec inner scheduler).exec (.start scheduler g disk process tmpCounter) first = some s
  succeeded : ∃ summary, s.run.phase = .finished (.ok summary) ∧ summary.succeeded = true
  secondRun : ∃ process tmpCounter,
    (cachedBuild codec inner' scheduler').exec (.start scheduler' g' s.cache.disk process tmpCounter) second = some t
  stores : ∀ e ∈ first ++ second, e.putFault = none
  reads : ∀ e ∈ second, e.readFault = none

/-- Throughout the second build the fingerprints of the first one are stored. -/
theorem Rebuilt.buildInv {inner' : TaskExecutor Env} {scheduler' : Scheduler} {g' : BuildGraph Task} {disk : Directory}
    {first second : List (CachedEvent Env)} (h : Rebuilt codec inner inner' scheduler scheduler' g g' disk first second s t)
    (hbuilt : g.Built) (hbuilt' : g'.Built) (hkeys : Consistent g) (hkeys' : Consistent g')
    (hinner : ∀ task env outcome, inner.execute task env = .ok outcome → outcome.status ≠ .cached)
    (hinner' : ∀ task env outcome, inner'.execute task env = .ok outcome → outcome.status ≠ .cached) :
    BuildInv codec scheduler' g' (Known g) t := by
  obtain ⟨process, tmpCounter, hfirst⟩ := h.firstRun
  obtain ⟨process', tmpCounter', hsecond⟩ := h.secondRun
  obtain ⟨summary, hfinished, hsucceeded⟩ := h.succeeded
  have hstart : BuildInv codec scheduler g (fun _ => False) (.start scheduler g disk process tmpCounter) :=
    .start hbuilt.wellFormed disk process tmpCounter fun _ _ hold => hold.elim
  have hs := hstart.exec hkeys hinner (fun e he => ⟨h.stores e (List.mem_append_left _ he), .inr fun _ => id⟩) hfirst
  have hnext : BuildInv codec scheduler' g' (Known g) (.start scheduler' g' s.cache.disk process' tmpCounter') := by
    apply BuildInv.start hbuilt'.wellFormed
    rintro task - ⟨entry, task', hentry, htask', hentry'⟩
    exact ⟨entry, hentry, (hs.storedTask_of_succeeded hfinished hsucceeded htask' entry hentry').congr rfl⟩
  exact hnext.exec hkeys' hinner' (fun e he => ⟨h.stores e (List.mem_append_right _ he), .inl (h.reads e he)⟩) hsecond

end Builds

section Rebuilds

variable {Env : Type*} (codec : RecordCodec) (inner inner' : TaskExecutor Env) (scheduler scheduler' : Scheduler)
  (g g' : BuildGraph Task) (disk : Directory) (first second : List (CachedEvent Env)) (s t : CachedRun)

end Rebuilds

/-- A task with a fingerprint. -/
def compiled : Task := ⟨"t", "", ⟨"cc", [], [], false, none⟩, some ⟨"a", "v1"⟩, []⟩

/-- A graph of that task. -/
def single : BuildGraph Task := (BuildGraph.new.addNode compiled).2

/-- The graph has no other task. -/
theorem eq_compiled_of_taskOf {task : Task} (htask : TaskOf single task) : task = compiled := by
  obtain ⟨x, hx⟩ := htask
  cases x with
  | zero => exact (Option.some.inj hx).symm
  | succ x => cases hx

/-- An executor that executes every task. -/
def compiler : TaskExecutor Unit := ⟨fun task _ => .ok (.executed task)⟩

/-- A build of the task by the second of two threads. -/
def singleBuild : List (CachedEvent Unit) :=
  [.scheduler (.refresh 2), .scheduler (.dispatch 0 0 3), .scheduler (.check 4), .take 1 ⟨0, none, none⟩,
    .finish 1 () ⟨0, none, none⟩, .scheduler .receive, .scheduler .drainEnd, .scheduler (.refresh 1),
    .scheduler (.check 9)]

/-- The first build goes through. -/
theorem isSome_first : ((cachedBuild (.ofTable sampleRecords) compiler twoWorkers).exec
    (.start twoWorkers single ∅ 1 0) singleBuild).isSome = true := by
  rfl

/-- The end of the first build. -/
def firstBuilt : CachedRun := Option.get _ isSome_first

/-- The second build goes through. -/
theorem isSome_second : ((cachedBuild (.ofTable sampleRecords) compiler twoWorkers).exec
    (.start twoWorkers single firstBuilt.cache.disk 2 0) singleBuild).isSome = true := by
  rfl

/-- The end of the second build. -/
def secondBuilt : CachedRun := Option.get _ isSome_second

/-- The executor has no cache of its own. -/
theorem compiler_status {task : Task} {env : Unit} {outcome : TaskOutcome}
    (hresult : compiler.execute task env = .ok outcome) : outcome.status ≠ .cached := by
  cases hresult
  nofun

/-- The graph is reached by the graph operations. -/
theorem single_built : single.Built := Built.new.addNode compiled

/-- One task has one fingerprint. -/
theorem consistent_single : Consistent single := by
  intro task task' htask htask' entry entry' hentry hentry' _
  rw [eq_compiled_of_taskOf htask] at hentry
  rw [eq_compiled_of_taskOf htask', hentry, Option.some.injEq] at hentry'
  rw [hentry']

/-- The two builds. -/
theorem rebuilt_single : Rebuilt (.ofTable sampleRecords) compiler compiler twoWorkers twoWorkers single single ∅
    singleBuild singleBuild firstBuilt secondBuilt where
  firstRun := ⟨1, 0, (Option.some_get isSome_first).symm⟩
  succeeded := ⟨_, rfl, rfl⟩
  secondRun := ⟨2, 0, (Option.some_get isSome_second).symm⟩
  stores := by simp [singleBuild, CachedEvent.putFault]
  reads := by simp [singleBuild, CachedEvent.readFault]

end Forge.Schedule
