import Forge.Cache.CachingExecutor

/-!
# Tools that are run through a cache

A task runs a tool that changes the world, unless the cache answers for it. A tool may fail;
it then leaves the world as it was. What is known about the cache is which fingerprint was
recorded last for each key: the one of the last run that executed a task of the key.
-/

namespace Forge.Cache

open Forge.Executor

variable {World : Type*}

/-- What is reported for a command that succeeded, or failed. -/
def processOutcome (succeeds : Bool) : TaskOutcome :=
  ⟨if succeeds then .executed else .failed, none, "", "", 0⟩

/-- The executor of processes: it reports whether a command succeeded. -/
def processExecutor : TaskExecutor Bool :=
  ⟨fun _ succeeds => .ok (processOutcome succeeds)⟩

/-- A world with tools, a cache in front of them, and the runs of the tools. -/
structure Workshop (World : Type*) where
  world : World
  state : ExecutorState Bool

namespace Workshop

/-- A workshop with an empty cache. -/
def new (world : World) (process : ℕ) : Workshop World :=
  ⟨world, ⟨processExecutor, .new ∅ process 0⟩, []⟩

/-- Open the directory of the cache in another process. -/
def reopen (w : Workshop World) (process : ℕ) : Workshop World :=
  { w with state := ⟨⟨w.state.executor.inner, .new w.state.executor.cache.disk process 0⟩, w.state.runs⟩ }

/-- The fingerprint that was recorded last for a key. -/
def recorded (w : Workshop World) (key : String) : Option String :=
  lastExecuted w.state.runs key

section Perform

variable (codec : RecordCodec) (tool : World → Option World) (task : Task) (io : CacheIo) (w : Workshop World)

/-- How a task is answered. -/
def answer : Option TaskStatus :=
  w.state.answer codec ⟨task, (tool w.world).isSome, io⟩

/-- Perform a task. -/
def perform : Workshop World where
  world := if w.state.executor.runsInner codec task io then (tool w.world).getD w.world else w.world
  state := w.state.call codec ⟨task, (tool w.world).isSome, io⟩

end Perform

/-- The cache has what was recorded: nothing else, and a file for every key. -/
structure Sound (codec : RecordCodec) (w : Workshop World) : Prop where
  inner : w.state.executor.inner = processExecutor
  backed : Backed codec w.state.executor.cache w.state.runs
  stored : ∀ key, (w.recorded key).isSome → (w.state.executor.cache.disk.lookup (fingerprintPath key)).isSome

variable {codec : RecordCodec}

/-- An empty cache is sound. -/
theorem sound_new (world : World) (process : ℕ) : (new world process).Sound codec where
  inner := rfl
  backed := backed_new codec process 0
  stored := fun _ hrecorded => absurd hrecorded Bool.false_ne_true

/-- Another process finds the cache as it was. -/
theorem Sound.reopen {w : Workshop World} (h : w.Sound codec) (process : ℕ) : (w.reopen process).Sound codec where
  inner := h.inner
  backed := ⟨fun key record hheld => absurd hheld (by rw [Workshop.reopen, LocalCache.new, AList.lookup_empty]; exact (Option.some_ne_none _).symm),
    h.backed.disk⟩
  stored := h.stored

/-- Asking leaves the directory. -/
theorem askCache_disk (codec : RecordCodec) (cache : LocalCache) (task : Task) (io : CacheIo) :
    (askCache codec cache task io).2.disk = cache.disk := by
  rw [askCache]
  cases task.cache with
  | none => rfl
  | some entry =>
    have hread := cache.readRecord_disk codec entry.key io.readFault
    revert hread
    dsimp only
    rw [LocalCache.matchesFingerprint]
    cases cache.readRecord codec entry.key io.readFault with
    | mk result cache' =>
      intro hread
      cases result with
      | error e => exact hread
      | ok found =>
        cases found with
        | none => exact hread
        | some record =>
          dsimp only
          split <;> exact hread

/-- Without a fault the cache answers for what was recorded. -/
theorem Sound.askCache_recorded {w : Workshop World} (h : w.Sound codec) {task : Task} {entry : Executor.CacheEntry}
    (hentry : task.cache = some entry) {io : CacheIo} (hio : io.readFault = none)
    (hrecorded : w.recorded entry.key = some entry.fingerprint) :
    (askCache codec w.state.executor.cache task io).1 = true := by
  obtain ⟨bytes, hfile⟩ := Option.isSome_iff_exists.mp (h.stored entry.key (by rw [hrecorded]; rfl))
  obtain ⟨record, hread, hlast⟩ := h.backed.disk entry.key bytes hfile
  rw [askCache, hentry]
  dsimp only
  rw [hio, LocalCache.matchesFingerprint_iff, LocalCache.get_eq, hfile, Option.bind_some]
  cases hmemory : w.state.executor.cache.memory.lookup entry.key with
  | some held => exact (h.backed.memory _ _ hmemory).symm.trans hrecorded
  | none =>
    rw [Option.none_or, hread]
    exact hlast.symm.trans hrecorded

/-- The cache answers and nothing is run. -/
theorem perform_of_hit (tool : World → Option World) {task : Task} {io : CacheIo} {w : Workshop World} {cache : LocalCache}
    (hask : askCache codec w.state.executor.cache task io = (true, cache)) :
    w.perform codec tool task io = ⟨w.world, ⟨w.state.executor.inner, cache⟩, w.state.runs⟩ ∧
      w.answer codec tool task io = some .cached := by
  rw [perform, answer, ExecutorState.answer, ExecutorState.call, CachingExecutor.execute, executeThrough,
    CachingExecutor.runsInner, hask]
  exact ⟨rfl, rfl⟩

/-- The cache does not answer and the tool is run. -/
theorem perform_of_miss (tool : World → Option World) {task : Task} {io : CacheIo} {w : Workshop World} {cache : LocalCache}
    (hinner : w.state.executor.inner = processExecutor)
    (hask : askCache codec w.state.executor.cache task io = (false, cache)) :
    w.perform codec tool task io =
        ⟨(tool w.world).getD w.world,
          ⟨processExecutor, storeOutcome codec cache task (processOutcome (tool w.world).isSome) io⟩,
          ⟨task, .ok (processOutcome (tool w.world).isSome)⟩ :: w.state.runs⟩ ∧
      w.answer codec tool task io = some (processOutcome (tool w.world).isSome).status := by
  rw [perform, answer, ExecutorState.answer, ExecutorState.call, CachingExecutor.execute, executeThrough,
    CachingExecutor.runsInner, hask, hinner]
  exact ⟨rfl, rfl⟩

/-- A run that failed counts for no key. -/
theorem executedFor_failed (task : Task) (key : String) :
    (⟨task, .ok (processOutcome false)⟩ : InnerRun).executedFor key = none := by
  refine executedFor_of_status_ne ?_ key
  exact fun hstatus => TaskStatus.noConfusion (Option.some.inj hstatus)

/-- How performing a cached task ends, and what is recorded then. -/
inductive Performed (codec : RecordCodec) (tool : World → Option World) (task : Task) (entry : Executor.CacheEntry)
    (io : CacheIo) (w : Workshop World) : Prop where
  | cached (hanswer : w.answer codec tool task io = some .cached)
      (hrecorded : w.recorded entry.key = some entry.fingerprint)
      (hworld : (w.perform codec tool task io).world = w.world)
      (hkept : ∀ key, (w.perform codec tool task io).recorded key = w.recorded key)
  | failed (hanswer : w.answer codec tool task io = some .failed) (htool : tool w.world = none)
      (hworld : (w.perform codec tool task io).world = w.world)
      (hkept : ∀ key, (w.perform codec tool task io).recorded key = w.recorded key)
  | executed (world : World) (hanswer : w.answer codec tool task io = some .executed) (htool : tool w.world = some world)
      (hworld : (w.perform codec tool task io).world = world)
      (hrecorded : ∀ key, (w.perform codec tool task io).recorded key =
        if entry.key = key then some entry.fingerprint else w.recorded key)
      (hmissed : io.readFault = none → w.recorded entry.key ≠ some entry.fingerprint)

section Perform

variable {task : Task} {io : CacheIo} {w : Workshop World}

/-- A task with a cache entry is answered by the cache, or its tool is run. -/
theorem Sound.performed (h : w.Sound codec) (tool : World → Option World) (io : CacheIo) {entry : Executor.CacheEntry}
    (hentry : task.cache = some entry) : Performed codec tool task entry io w := by
  have hasked := (h.backed.askCache task io).2 entry hentry
  have hhit : io.readFault = none → w.recorded entry.key = some entry.fingerprint →
      (askCache codec w.state.executor.cache task io).1 = true := fun hio => h.askCache_recorded hentry hio
  cases hask : askCache codec w.state.executor.cache task io with
  | mk hit cache =>
    rw [hask] at hasked hhit
    cases hit with
    | true =>
      obtain ⟨hperform, hanswer⟩ := perform_of_hit tool hask
      exact .cached hanswer (hasked rfl) (by rw [hperform]) (fun key => by rw [hperform]; rfl)
    | false =>
      obtain ⟨hperform, hanswer⟩ := perform_of_miss tool h.inner hask
      cases htool : tool w.world with
      | none =>
        rw [htool] at hperform hanswer
        refine .failed hanswer htool (by rw [hperform]; rfl) fun key => ?_
        rw [hperform, recorded, lastExecuted_cons, Option.isSome_none, executedFor_failed, Option.none_or]
        rfl
      | some world =>
        rw [htool] at hperform hanswer
        refine .executed world hanswer htool (by rw [hperform]; rfl) (fun key => ?_) fun hio hrecorded => ?_
        · rw [hperform, recorded, lastExecuted_cons, executedFor_of_executed rfl hentry]
          split
          · rw [Option.some_or]
          · rw [Option.none_or]
            rfl
        · exact absurd (hhit hio hrecorded) Bool.false_ne_true

/-- A task without a cache entry is run, and nothing is recorded. -/
theorem Sound.performed_uncached (h : w.Sound codec) (tool : World → Option World) (io : CacheIo)
    (hentry : task.cache = none) :
    (w.perform codec tool task io).world = (tool w.world).getD w.world ∧
      ∀ key, (w.perform codec tool task io).recorded key = w.recorded key := by
  have hask : askCache codec w.state.executor.cache task io = (false, w.state.executor.cache) := by
    rw [askCache, hentry]
  obtain ⟨hperform, -⟩ := perform_of_miss tool h.inner hask
  rw [hperform]
  refine ⟨rfl, fun key => ?_⟩
  rw [recorded, lastExecuted_cons, InnerRun.executedFor, InnerRun.forKey, hentry]
  rfl

/-- Storing what was executed keeps the files of the other keys. -/
theorem storeOutcome_stored {cache : LocalCache} {outcome : TaskOutcome} (hwrites : io.putFault = none) {key : String}
    (hstored : (⟨task, .ok outcome⟩ : InnerRun).executedFor key = none →
      (cache.disk.lookup (fingerprintPath key)).isSome) :
    ((storeOutcome codec cache task outcome io).disk.lookup (fingerprintPath key)).isSome := by
  rw [storeOutcome]
  by_cases hexecuted : outcome.status = .executed
  · cases hentry : task.cache with
    | none =>
      rw [hexecuted]
      exact hstored (by rw [InnerRun.executedFor, InnerRun.forKey, hentry]; rfl)
    | some entry =>
      have hstatus : (⟨task, .ok outcome⟩ : InnerRun).result.status? = some .executed := by
        rw [ExecResult.status?, hexecuted]
      rw [executedFor_of_executed hstatus hentry] at hstored
      obtain ⟨hok, -, hdisk⟩ := cache.putWithArtifact_ok codec entry.key entry.fingerprint none io.now
      rw [hexecuted, hwrites]
      dsimp only
      rw [LocalCache.put]
      revert hok hdisk
      cases cache.putWithArtifact codec entry.key entry.fingerprint none io.now none with
      | mk result cache' =>
        intro hok hdisk
        dsimp only at hok hdisk
        rw [hok]
        dsimp only
        rw [hdisk]
        by_cases hkey : key = entry.key
        · rw [if_pos hkey]
          rfl
        · rw [if_neg hkey]
          exact hstored (if_neg (Ne.symm hkey))
  · have hother : (⟨task, .ok outcome⟩ : InnerRun).result.status? ≠ some .executed := fun hstatus =>
      hexecuted (Option.some.inj hstatus)
    have hkept := hstored (executedFor_of_status_ne hother key)
    cases hstatus : outcome.status with
    | executed => exact absurd hstatus hexecuted
    | cached => exact hkept
    | failed => exact hkept

/-- Performing a task keeps the cache sound when the store meets no fault. -/
theorem Sound.perform (h : w.Sound codec) (tool : World → Option World) (task : Task) (hwrites : io.putFault = none) :
    (w.perform codec tool task io).Sound codec where
  inner := h.inner
  backed := h.backed.call ⟨task, (tool w.world).isSome, io⟩ hwrites
  stored := by
    intro key hrecorded
    have hdisk := askCache_disk codec w.state.executor.cache task io
    cases hask : askCache codec w.state.executor.cache task io with
    | mk hit cache =>
      rw [hask] at hdisk
      cases hit with
      | true =>
        obtain ⟨hperform, -⟩ := perform_of_hit tool hask
        rw [hperform] at hrecorded ⊢
        dsimp only at hdisk ⊢
        rw [hdisk]
        exact h.stored key hrecorded
      | false =>
        obtain ⟨hperform, -⟩ := perform_of_miss tool h.inner hask
        rw [hperform] at hrecorded ⊢
        refine storeOutcome_stored hwrites fun hnone => ?_
        rw [recorded, lastExecuted_cons, hnone, Option.none_or] at hrecorded
        dsimp only at hdisk
        rw [hdisk]
        exact h.stored key hrecorded

end Perform

end Workshop

end Forge.Cache
