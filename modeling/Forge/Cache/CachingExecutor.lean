import Forge.Cache.LocalCache
import Forge.Executor.Task
import Mathlib.Data.List.Induction

/-!
# Executors that answer from the local cache

An executor asks the cache about the fingerprint of a task before it runs the inner
executor, and stores the fingerprint when the inner executor reports that the task was
executed. Nothing is taken out of the cache when the inner executor fails: a cached answer
says that the last execution that succeeded for the key had the same fingerprint, whatever
was tried since.
-/

namespace Forge.Cache

open Forge.Executor

variable {Env : Type*}

/-- What the file system and the clock do to the cache during a call. -/
structure CacheIo where
  now : UInt64
  readFault : Option String
  putFault : Option PutFault

/-- An executor with a cache in front of it. -/
structure CachingExecutor (Env : Type*) where
  inner : TaskExecutor Env
  cache : LocalCache

/-- An executor with a file-level cache and a local cache in front of it. The file-level
cache is not asked. -/
structure HybridCachingExecutor (Env : Type*) where
  inner : TaskExecutor Env
  localCache : LocalCache

section Execute

variable (codec : RecordCodec)

/-- Ask a cache whether it has the fingerprint of a task. -/
def askCache (cache : LocalCache) (task : Task) (io : CacheIo) : Bool × LocalCache :=
  match task.cache with
  | some entry => cache.matchesFingerprint codec entry.key entry.fingerprint io.readFault
  | none => (false, cache)

/-- Store the fingerprint of a task that was executed. A failing store is only counted. -/
def storeOutcome (cache : LocalCache) (task : Task) (outcome : TaskOutcome) (io : CacheIo) :
    LocalCache :=
  match outcome.status, task.cache with
  | .executed, some entry =>
    match cache.put codec entry.key entry.fingerprint io.now io.putFault with
    | (.ok (), cache) => cache
    | (.error _, cache) => cache.recordError
  | _, _ => cache

/-- Execute a task, unless a cache has its fingerprint. -/
def executeThrough (inner : TaskExecutor Env) (cache : LocalCache) (task : Task) (env : Env)
    (io : CacheIo) : ExecResult × LocalCache :=
  let (hit, cache) := askCache codec cache task io
  if hit then (.ok (.cached task), cache)
  else
    match inner.execute task env with
    | .ok outcome => (.ok outcome, storeOutcome codec cache task outcome io)
    | failure => (failure, cache)

/-- Execute a task through the cache of an executor. -/
def CachingExecutor.execute (e : CachingExecutor Env) (task : Task) (env : Env) (io : CacheIo) :
    ExecResult × CachingExecutor Env :=
  let (result, cache) := executeThrough codec e.inner e.cache task env io
  (result, { e with cache := cache })

/-- Execute a task through the local cache of an executor. -/
def HybridCachingExecutor.execute (e : HybridCachingExecutor Env) (task : Task) (env : Env)
    (io : CacheIo) : ExecResult × HybridCachingExecutor Env :=
  let (result, localCache) := executeThrough codec e.inner e.localCache task env io
  (result, { e with localCache := localCache })

/-- Whether a call runs the inner executor. -/
def CachingExecutor.runsInner (e : CachingExecutor Env) (task : Task) (io : CacheIo) : Bool :=
  !(askCache codec e.cache task io).1

end Execute

/-- A call of an executor. -/
structure ExecCall (Env : Type*) where
  task : Task
  env : Env
  io : CacheIo

/-- A run of the inner executor and how it ended. -/
structure InnerRun where
  task : Task
  result : ExecResult

/-- An executor in use, with the runs of its inner executor, the last one first. -/
structure ExecutorState (Env : Type*) where
  executor : CachingExecutor Env
  runs : List InnerRun

/-- The fingerprint and the end of a run, if it is for the given key. -/
def InnerRun.forKey (run : InnerRun) (key : String) : Option (String × ExecResult) :=
  match run.task.cache with
  | some entry => if entry.key = key then some (entry.fingerprint, run.result) else none
  | none => none

/-- The fingerprint of a run that executed a task with the given key. -/
def InnerRun.executedFor (run : InnerRun) (key : String) : Option String :=
  (run.forKey key).bind fun (fingerprint, result) =>
    if result.status? = some .executed then some fingerprint else none

/-- The last run for a key. -/
def lastRun (runs : List InnerRun) (key : String) : Option (String × ExecResult) :=
  runs.findSome? (·.forKey key)

/-- The fingerprint of the last run that executed the task of a key. -/
def lastExecuted (runs : List InnerRun) (key : String) : Option String :=
  runs.findSome? (·.executedFor key)

section Calls

variable (codec : RecordCodec)

/-- The state after one call. -/
def ExecutorState.call (s : ExecutorState Env) (c : ExecCall Env) : ExecutorState Env :=
  ⟨(s.executor.execute codec c.task c.env c.io).2,
    if s.executor.runsInner codec c.task c.io then
      ⟨c.task, s.executor.inner.execute c.task c.env⟩ :: s.runs
    else s.runs⟩

/-- The state after a sequence of calls, from an empty directory. -/
def ExecutorState.after (inner : TaskExecutor Env) (process : ℕ) (calls : List (ExecCall Env)) :
    ExecutorState Env :=
  calls.foldl (·.call codec ·) ⟨⟨inner, .new ∅ process 0⟩, []⟩

/-- How a call after a sequence of calls is answered. -/
def ExecutorState.answer (s : ExecutorState Env) (c : ExecCall Env) : Option TaskStatus :=
  (s.executor.execute codec c.task c.env c.io).1.status?

/-- A cached answer for a key means that the last run for the key executed the task with the
fingerprint that is asked for. -/
def CachedAfterLastRun (inner : TaskExecutor Env) (process : ℕ) (calls : List (ExecCall Env))
    (c : ExecCall Env) : Prop :=
  ∀ entry, c.task.cache = some entry →
    (ExecutorState.after codec inner process calls).answer codec c = some .cached →
    ∃ result, lastRun (ExecutorState.after codec inner process (calls ++ [c])).runs entry.key =
      some (entry.fingerprint, result) ∧ result.status? = some .executed

/-! ## What the cache knows -/

/-- Both executors answer alike and leave the cache alike. -/
theorem HybridCachingExecutor.execute_eq (e : HybridCachingExecutor Env) (task : Task) (env : Env)
    (io : CacheIo) :
    ((e.execute codec task env io).1, (e.execute codec task env io).2.localCache) =
      (((⟨e.inner, e.localCache⟩ : CachingExecutor Env).execute codec task env io).1,
        ((⟨e.inner, e.localCache⟩ : CachingExecutor Env).execute codec task env io).2.cache) := rfl

/-- What the cache holds about a key, in memory or in a file, is the fingerprint of the last
run that executed the task of the key. -/
structure Backed (c : LocalCache) (runs : List InnerRun) : Prop where
  memory : ∀ key record, c.memory.lookup key = some record →
    lastExecuted runs key = some record.fingerprint
  disk : ∀ key bytes, c.disk.lookup (fingerprintPath key) = some bytes →
    ∃ record, codec.fromSlice bytes = some record ∧ lastExecuted runs key = some record.fingerprint

/-- A new cache on an empty directory holds nothing. -/
theorem backed_new (process tmpCounter : ℕ) : Backed codec (.new ∅ process tmpCounter) [] :=
  ⟨fun key record hheld => absurd hheld (by rw [LocalCache.new, AList.lookup_empty]; exact nofun),
    fun key bytes hfile => absurd hfile (by rw [LocalCache.new, AList.lookup_empty]; exact nofun)⟩

variable {codec}

/-- What is held depends on the contents of memory and directory only. -/
theorem Backed.congr {c c' : LocalCache} {runs : List InnerRun} (hbacked : Backed codec c runs)
    (hmemory : c'.memory = c.memory) (hdisk : c'.disk = c.disk) : Backed codec c' runs :=
  ⟨by rw [hmemory]; exact hbacked.memory, by rw [hdisk]; exact hbacked.disk⟩

/-- A found record has the fingerprint of the last run that executed the task of its key. -/
theorem Backed.readRecord_found {c : LocalCache} {runs : List InnerRun} (hbacked : Backed codec c runs)
    {key : String} {fault : Option String} {record : FingerprintRecord}
    (hfound : (c.readRecord codec key fault).1 = .ok (some record)) :
    lastExecuted runs key = some record.fingerprint := by
  obtain hheld | ⟨bytes, hfile, hread⟩ := c.readRecord_found codec hfound
  · exact hbacked.memory key record hheld
  · obtain ⟨stored, hstored, hlast⟩ := hbacked.disk key bytes hfile
    rw [hread] at hstored
    rw [hlast, Option.some.inj hstored]

/-- A lookup keeps what the cache holds. -/
theorem Backed.readRecord {c : LocalCache} {runs : List InnerRun} (hbacked : Backed codec c runs)
    (key : String) (fault : Option String) : Backed codec (c.readRecord codec key fault).2 runs := by
  constructor
  · intro other record hheld
    obtain hheld | ⟨hother, hfound⟩ := c.readRecord_memory codec hheld
    · exact hbacked.memory other record hheld
    · subst hother
      exact hbacked.readRecord_found hfound
  · rw [c.readRecord_disk]
    exact hbacked.disk

/-- A comparison keeps what the cache holds, and succeeds only for the fingerprint of the last
run that executed the task of the key. -/
theorem Backed.matchesFingerprint {c : LocalCache} {runs : List InnerRun} (hbacked : Backed codec c runs)
    (key fingerprint : String) (fault : Option String) :
    Backed codec (c.matchesFingerprint codec key fingerprint fault).2 runs ∧
      ((c.matchesFingerprint codec key fingerprint fault).1 = true →
        lastExecuted runs key = some fingerprint) := by
  have hread := hbacked.readRecord key fault
  have hfound : ∀ record, (c.readRecord codec key fault).1 = .ok (some record) →
      lastExecuted runs key = some record.fingerprint := fun record => hbacked.readRecord_found
  revert hread hfound
  rw [LocalCache.matchesFingerprint]
  cases c.readRecord codec key fault with
  | mk result c' =>
    intro hread hfound
    cases result with
    | error e => exact ⟨hread.congr rfl rfl, fun hmatches => by cases hmatches⟩
    | ok found =>
      cases found with
      | none => exact ⟨hread.congr rfl rfl, fun hmatches => by cases hmatches⟩
      | some record =>
        simp only
        by_cases hfingerprint : record.fingerprint = fingerprint
        · rw [if_pos hfingerprint]
          exact ⟨hread.congr rfl rfl, fun _ => hfingerprint ▸ hfound record rfl⟩
        · rw [if_neg hfingerprint]
          exact ⟨hread.congr rfl rfl, fun hmatches => by cases hmatches⟩

/-- The last executing run after one more run. -/
theorem lastExecuted_cons (run : InnerRun) (runs : List InnerRun) (key : String) :
    lastExecuted (run :: runs) key = (run.executedFor key).or (lastExecuted runs key) := by
  rw [lastExecuted, List.findSome?_cons, lastExecuted]
  cases run.executedFor key <;> rfl

/-- A run that ends in any other way than executing its task counts for no key. -/
theorem executedFor_of_status_ne {run : InnerRun} (hstatus : run.result.status? ≠ some .executed)
    (key : String) : run.executedFor key = none := by
  rw [InnerRun.executedFor, InnerRun.forKey]
  cases run.task.cache with
  | none => rfl
  | some entry =>
    by_cases hkey : entry.key = key
    · simp only [if_pos hkey, Option.bind_some, if_neg hstatus]
    · simp only [if_neg hkey, Option.bind_none]

/-- A run that executes its task counts for the key of the task. -/
theorem executedFor_of_executed {run : InnerRun} (hstatus : run.result.status? = some .executed)
    {entry : Executor.CacheEntry} (hentry : run.task.cache = some entry) (key : String) :
    run.executedFor key = if entry.key = key then some entry.fingerprint else none := by
  rw [InnerRun.executedFor, InnerRun.forKey, hentry]
  by_cases hkey : entry.key = key
  · simp only [if_pos hkey, Option.bind_some, if_pos hstatus]
  · simp only [if_neg hkey, Option.bind_none]

/-- Storing the fingerprint of a run that executed its task keeps the cache backed by the
runs. -/
theorem Backed.put {c : LocalCache} {runs : List InnerRun} (hbacked : Backed codec c runs)
    {run : InnerRun} (hstatus : run.result.status? = some .executed) {entry : Executor.CacheEntry}
    (hentry : run.task.cache = some entry) (now : UInt64) :
    (c.put codec entry.key entry.fingerprint now none).1 = .ok () ∧
      Backed codec (c.put codec entry.key entry.fingerprint now none).2 (run :: runs) := by
  obtain ⟨hok, hmemory, hdisk⟩ := c.putWithArtifact_ok codec entry.key entry.fingerprint none now
  have hlast : ∀ key, lastExecuted (run :: runs) key =
      if key = entry.key then some entry.fingerprint else lastExecuted runs key := by
    intro key
    rw [lastExecuted_cons, executedFor_of_executed hstatus hentry]
    by_cases hkey : key = entry.key
    · rw [if_pos hkey, if_pos hkey.symm, Option.some_or]
    · rw [if_neg hkey, if_neg (Ne.symm hkey), Option.none_or]
  refine ⟨hok, ⟨fun key record hheld => ?_, fun key bytes hfile => ?_⟩⟩
  · rw [LocalCache.put, hmemory] at hheld
    rw [hlast]
    by_cases hkey : key = entry.key
    · subst hkey
      rw [AList.lookup_insert] at hheld
      cases hheld
      rw [if_pos rfl]
    · rw [AList.lookup_insert_ne hkey] at hheld
      rw [if_neg hkey]
      exact hbacked.memory key record hheld
  · rw [LocalCache.put, hdisk] at hfile
    rw [hlast]
    by_cases hkey : key = entry.key
    · rw [if_pos hkey] at hfile ⊢
      cases hfile
      exact ⟨_, codec.fromSlice_toVec _, rfl⟩
    · rw [if_neg hkey] at hfile ⊢
      exact hbacked.disk key bytes hfile

/-- A run that does not execute its task keeps the cache backed by the runs. -/
theorem Backed.cons {c : LocalCache} {runs : List InnerRun} (hbacked : Backed codec c runs)
    {run : InnerRun} (hnone : ∀ key, run.executedFor key = none) : Backed codec c (run :: runs) := by
  have hlast : ∀ key, lastExecuted (run :: runs) key = lastExecuted runs key := by
    intro key
    rw [lastExecuted_cons, hnone, Option.none_or]
  exact ⟨fun key record hheld => hlast key ▸ hbacked.memory key record hheld,
    fun key bytes hfile => hlast key ▸ hbacked.disk key bytes hfile⟩

/-- Asking keeps the cache backed, and it has only the fingerprint of the last run that
executed the task of the key. -/
theorem Backed.askCache {c : LocalCache} {runs : List InnerRun} (hbacked : Backed codec c runs)
    (task : Task) (io : CacheIo) :
    Backed codec (askCache codec c task io).2 runs ∧
      ∀ entry, task.cache = some entry → (Forge.Cache.askCache codec c task io).1 = true →
        lastExecuted runs entry.key = some entry.fingerprint := by
  rw [Forge.Cache.askCache]
  cases task.cache with
  | none => exact ⟨hbacked, fun entry hentry => by cases hentry⟩
  | some entry =>
    obtain ⟨hasked, hlast⟩ := hbacked.matchesFingerprint entry.key entry.fingerprint io.readFault
    refine ⟨hasked, fun other hother hhit => ?_⟩
    cases hother
    exact hlast hhit

/-- Storing the outcome of a run keeps the cache backed by the runs. -/
theorem Backed.storeOutcome {c : LocalCache} {runs : List InnerRun} (hbacked : Backed codec c runs)
    (task : Task) (outcome : TaskOutcome) (io : CacheIo) (hwrites : io.putFault = none) :
    Backed codec (storeOutcome codec c task outcome io) (⟨task, .ok outcome⟩ :: runs) := by
  cases hexecuted : decide (outcome.status = .executed) with
  | false =>
    have hstatus : (ExecResult.ok outcome).status? ≠ some .executed := by
      rw [ExecResult.status?, ne_eq, Option.some.injEq]
      exact of_decide_eq_false hexecuted
    have hkept : Forge.Cache.storeOutcome codec c task outcome io = c := by
      rw [Forge.Cache.storeOutcome]
      cases hcase : outcome.status with
      | executed => exact absurd hcase (of_decide_eq_false hexecuted)
      | cached => rfl
      | failed => rfl
    rw [hkept]
    exact hbacked.cons (executedFor_of_status_ne hstatus)
  | true =>
    have hstatus : outcome.status = .executed := of_decide_eq_true hexecuted
    rw [Forge.Cache.storeOutcome, hstatus]
    cases hentry : task.cache with
    | none =>
      refine hbacked.cons fun key => ?_
      rw [InnerRun.executedFor, InnerRun.forKey, hentry]
      rfl
    | some entry =>
      have hexecuted : (⟨task, .ok outcome⟩ : InnerRun).result.status? = some .executed := by
        rw [ExecResult.status?, hstatus]
      have hput := hbacked.put hexecuted hentry io.now
      revert hput
      simp only [hwrites]
      cases c.put codec entry.key entry.fingerprint io.now none with
      | mk result c' =>
        intro hput
        obtain ⟨hok, hafter⟩ := hput
        cases hok
        exact hafter

/-- A call whose store meets no fault keeps the cache backed by the runs. -/
theorem Backed.call {s : ExecutorState Env} (hbacked : Backed codec s.executor.cache s.runs)
    (c : ExecCall Env) (hwrites : c.io.putFault = none) :
    Backed codec (s.call codec c).executor.cache (s.call codec c).runs := by
  obtain ⟨hasked, _⟩ := hbacked.askCache c.task c.io
  revert hasked
  rw [ExecutorState.call, CachingExecutor.execute, executeThrough, CachingExecutor.runsInner]
  cases Forge.Cache.askCache codec s.executor.cache c.task c.io with
  | mk hit cache =>
    intro hasked
    cases hit with
    | true => exact hasked
    | false =>
      simp only [Bool.false_eq_true, if_false, Bool.not_false, if_true]
      cases s.executor.inner.execute c.task c.env with
      | ok outcome => exact hasked.storeOutcome c.task outcome c.io hwrites
      | err error => exact hasked.cons (executedFor_of_status_ne fun hstatus => by cases hstatus)
      | panic message => exact hasked.cons (executedFor_of_status_ne fun hstatus => by cases hstatus)

/-- The state after one more call. -/
theorem after_snoc (inner : TaskExecutor Env) (process : ℕ) (calls : List (ExecCall Env))
    (c : ExecCall Env) :
    ExecutorState.after codec inner process (calls ++ [c]) =
      (ExecutorState.after codec inner process calls).call codec c := by
  rw [ExecutorState.after, List.foldl_append]
  rfl

/-- Along calls whose stores meet no fault the cache is backed by the runs. -/
theorem backed_after (codec : RecordCodec) (inner : TaskExecutor Env) (process : ℕ)
    (calls : List (ExecCall Env)) (hwrites : ∀ c ∈ calls, c.io.putFault = none) :
    Backed codec (ExecutorState.after codec inner process calls).executor.cache
      (ExecutorState.after codec inner process calls).runs := by
  induction calls using List.reverseRecOn with
  | nil => exact backed_new codec process 0
  | append_singleton calls c ih =>
    rw [after_snoc]
    exact (ih fun c' hc' => hwrites c' (List.mem_append_left _ hc')).call c
      (hwrites c (List.mem_append_right _ (List.mem_singleton_self c)))

/-- The inner executor of a run stays the same. -/
theorem after_inner (codec : RecordCodec) (inner : TaskExecutor Env) (process : ℕ)
    (calls : List (ExecCall Env)) :
    (ExecutorState.after codec inner process calls).executor.inner = inner := by
  induction calls using List.reverseRecOn with
  | nil => rfl
  | append_singleton calls c ih =>
    rw [after_snoc]
    exact ih

/-- A cached answer is sound: the last run that executed the task of the key had the
fingerprint that is asked for, unless the inner executor was run in this very call and
answered `cached` itself. -/
theorem cached_sound (inner : TaskExecutor Env) (process : ℕ) (calls : List (ExecCall Env))
    (hwrites : ∀ c ∈ calls, c.io.putFault = none) (c : ExecCall Env) (entry : Executor.CacheEntry)
    (hentry : c.task.cache = some entry)
    (hcached : (ExecutorState.after codec inner process calls).answer codec c = some .cached) :
    lastExecuted (ExecutorState.after codec inner process calls).runs entry.key =
        some entry.fingerprint ∨
      ((ExecutorState.after codec inner process calls).executor.runsInner codec c.task c.io = true ∧
        (inner.execute c.task c.env).status? = some .cached) := by
  obtain ⟨_, hlast⟩ := (backed_after codec inner process calls hwrites).askCache c.task c.io
  have hinner := after_inner codec inner process calls
  revert hcached hlast
  rw [ExecutorState.answer, CachingExecutor.execute, executeThrough, CachingExecutor.runsInner, hinner]
  cases Forge.Cache.askCache codec (ExecutorState.after codec inner process calls).executor.cache
    c.task c.io with
  | mk hit cache =>
    intro hcached hlast
    cases hit with
    | true => exact Or.inl (hlast entry hentry rfl)
    | false =>
      refine Or.inr ⟨rfl, ?_⟩
      revert hcached
      simp only [Bool.false_eq_true, if_false]
      cases inner.execute c.task c.env with
      | ok outcome => exact id
      | err error => exact fun hcached => by cases hcached
      | panic message => exact fun hcached => by cases hcached

/-- A call for one task with the given inputs, and how the inner executor would end. -/
def sampleCall (fingerprint : String) (status : TaskStatus) : ExecCall ExecResult :=
  ⟨⟨"t", "", ⟨"cc", [], [], false, none⟩, some ⟨"a", fingerprint⟩, []⟩, .ok ⟨status, none, "", "", 0⟩,
    ⟨0, none, none⟩⟩

/-- A task that is executed, fails with other inputs and is asked for with its first inputs
again is answered from the cache, although its last run failed. -/
theorem not_cachedAfterLastRun_after_failure :
    ¬ CachedAfterLastRun (.ofTable sampleRecords) ⟨fun _ env => env⟩ 1
      [sampleCall "v1" .executed, sampleCall "v2" .failed] (sampleCall "v1" .executed) := by
  intro h
  obtain ⟨result, hrun, _⟩ := h ⟨"a", "v1"⟩ rfl (by decide)
  have hlast : (lastRun (ExecutorState.after (.ofTable sampleRecords) ⟨fun _ env => env⟩ 1
      [sampleCall "v1" .executed, sampleCall "v2" .failed, sampleCall "v1" .executed]).runs "a").map
      Prod.fst = some "v2" := by
    decide
  have hclaimed : some "v2" = some "v1" := hlast.symm.trans (congrArg (Option.map Prod.fst) hrun)
  exact absurd hclaimed (by decide)

/-- After the failure the last run that executed the task still had its first inputs. -/
theorem cached_sound_after_failure :
    lastExecuted (ExecutorState.after (.ofTable sampleRecords) ⟨fun _ env => env⟩ 1
        [sampleCall "v1" .executed, sampleCall "v2" .failed]).runs "a" = some "v1" ∨
      ((ExecutorState.after (.ofTable sampleRecords) ⟨fun _ env => env⟩ 1
          [sampleCall "v1" .executed, sampleCall "v2" .failed]).executor.runsInner
            (.ofTable sampleRecords) (sampleCall "v1" .executed).task (sampleCall "v1" .executed).io = true ∧
        (sampleCall "v1" .executed).env.status? = some .cached) :=
  cached_sound ⟨fun _ env => env⟩ 1 [sampleCall "v1" .executed, sampleCall "v2" .failed]
    (by decide) (sampleCall "v1" .executed) ⟨"a", "v1"⟩ rfl (by decide)

end Calls

end Forge.Cache
