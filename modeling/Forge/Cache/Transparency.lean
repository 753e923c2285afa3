import Forge.Cache.SharedCaches

/-!
# When the memory of the caches is transparent

What a cache has in memory about a key should be what the file of the key says. A store
changes the memory of its own cache before the file, and a rename changes the file under the
memory of all caches. So the memory is transparent as long as every rename finds only the
fingerprint it brings in the memories, stores do not fail half way, and no lookup keeps what
it read of a file that was replaced since. A store that is still in progress excuses what it
put into memory.
-/

namespace Forge.Cache.SharedCaches

open Forge.Common

variable (codec : RecordCodec) (process : ℕ → ℕ)

/-- The file of a key is missing or says the fingerprint. -/
def FileSays (s : SharedCaches) (key fingerprint : String) : Prop :=
  s.disk.lookup (fingerprintPath key) = none ∨ s.fileFingerprint codec key = some fingerprint

/-- A store on a cache has put a fingerprint into memory and is still in progress. -/
def Pending (s : SharedCaches) (cache : ℕ) (key fingerprint : String) : Prop :=
  ∃ thread record stage, s.flights.lookup thread = some (.put cache key record stage) ∧
    stage ≠ .started ∧ record.fingerprint = fingerprint

/-- What the memories hold is what the files say, or what stores in progress will make them
say. -/
def Coherent (s : SharedCaches) : Prop :=
  ∀ cache key record, (s.memory cache).lookup key = some record →
    s.FileSays codec key record.fingerprint ∨ s.Pending cache key record.fingerprint

/-- When the store of a thread gives up, the memory of its cache holds what the file says, or
what another store in progress put there. -/
def LeavesCoherent (s : SharedCaches) (thread cache : ℕ) (key : String) : Prop :=
  ∀ held, (s.memory cache).lookup key = some held →
    s.FileSays codec key held.fingerprint ∨ (s.finish thread).Pending cache key held.fingerprint

/-- The condition on a step. A rename brings the fingerprint that all memories with the key
hold, other than those that another store in progress put there. A store does not give up
while memory and file differ. A lookup keeps only what the file still says. -/
def KeepsCoherent (s : SharedCaches) : CacheEvent → Prop
  | .renameTmp thread => ∀ cache key record seq,
      s.flights.lookup thread = some (.put cache key record (.written seq)) →
        if s.disk.lookup (uniqueTmpPath key (process cache) seq) = none then
          s.LeavesCoherent codec thread cache key
        else ∀ other held, (s.memory other).lookup key = some held →
          held.fingerprint = record.fingerprint ∨ (s.finish thread).Pending other key held.fingerprint
  | .failPut thread _ => ∀ cache key record stage,
      s.flights.lookup thread = some (.put cache key record stage) → stage ≠ .started →
        s.LeavesCoherent codec thread cache key
  | .insertRead thread => ∀ cache key record,
      s.flights.lookup thread = some (.read cache key (.found record)) →
        s.FileSays codec key record.fingerprint ∨ s.Pending cache key record.fingerprint
  | _ => True

/-- Every step of a run meets the condition. -/
def RunKeepsCoherent : SharedCaches → List CacheEvent → Prop
  | _, [] => True
  | s, e :: events => s.KeepsCoherent codec process e ∧
      ∀ s', (machine codec process).step s e = some s' → RunKeepsCoherent s' events

/-! ## What the steps do -/

section Steps

variable {s : SharedCaches}

/-- The call of a thread after it went on. -/
theorem goOn_lookup (thread other : ℕ) (flight : Flight) :
    (s.goOn thread flight).flights.lookup other =
      if other = thread then some flight else s.flights.lookup other := by
  rw [goOn]
  by_cases hother : other = thread
  · subst hother
    rw [if_pos rfl, AList.lookup_insert]
  · rw [if_neg hother, AList.lookup_insert_ne hother]

/-- The calls after a thread returned. -/
theorem finish_lookup (thread other : ℕ) :
    (s.finish thread).flights.lookup other =
      if other = thread then none else s.flights.lookup other := by
  rw [finish]
  by_cases hother : other = thread
  · subst hother
    rw [if_pos rfl, AList.lookup_erase]
  · rw [if_neg hother, AList.lookup_erase_ne hother]

/-- The map of a cache after a change of a map. -/
theorem setMemory_memory (cache other : ℕ) (memory : MemoryCache) :
    (s.setMemory cache memory).memory other = if other = cache then memory else s.memory other :=
  Function.update_apply s.memory cache memory other

/-- A step that adds nothing to the files and the memories, and leaves the stores that have
come past their first step. -/
structure Quiet (s s' : SharedCaches) : Prop where
  disk : ∀ path bytes, s'.disk.lookup path = some bytes → s.disk.lookup path = some bytes
  memory : ∀ cache key record, (s'.memory cache).lookup key = some record →
    (s.memory cache).lookup key = some record
  flights : ∀ thread cache key record stage, stage ≠ PutStage.started →
    (s'.flights.lookup thread = some (.put cache key record stage) ↔
      s.flights.lookup thread = some (.put cache key record stage))
  tmpCounter : s'.tmpCounter = s.tmpCounter

/-- The steps, one case for every kind. -/
inductive StepCase (s : SharedCaches) : CacheEvent → SharedCaches → Prop where
  | quiet (e : CacheEvent) (s' : SharedCaches) (hquiet : Quiet s s')
      (hkeeps : s.KeepsCoherent codec process e) : StepCase s e s'
  | insertMemory (thread cache : ℕ) (key : String) (record : FingerprintRecord)
      (hflight : s.flights.lookup thread = some (.put cache key record .started)) :
      StepCase s (.insertMemory thread)
        ((s.setMemory cache ((s.memory cache).insert key record)).goOn thread
          (.put cache key record .inserted))
  | writeTmp (thread cache : ℕ) (key : String) (record : FingerprintRecord)
      (hflight : s.flights.lookup thread = some (.put cache key record .inserted)) :
      StepCase s (.writeTmp thread)
        (((s.setDisk (s.disk.insert (s.nextTmp process cache key) (codec.toVec record))).takeSeq
          (process cache)).goOn thread (.put cache key record (.written (s.tmpCounter (process cache)))))
  | renamed (thread cache : ℕ) (key : String) (record : FingerprintRecord) (seq : ℕ) (bytes : Bytes)
      (hflight : s.flights.lookup thread = some (.put cache key record (.written seq)))
      (hbytes : s.disk.lookup (uniqueTmpPath key (process cache) seq) = some bytes) :
      StepCase s (.renameTmp thread)
        ((s.setDisk ((s.disk.erase (uniqueTmpPath key (process cache) seq)).insert
          (fingerprintPath key) bytes)).finish thread)
  | tmpLost (thread cache : ℕ) (key : String) (record : FingerprintRecord) (seq : ℕ)
      (hflight : s.flights.lookup thread = some (.put cache key record (.written seq)))
      (hnone : s.disk.lookup (uniqueTmpPath key (process cache) seq) = none) :
      StepCase s (.renameTmp thread) (s.finish thread)
  | failInserted (thread cache : ℕ) (key : String) (record : FingerprintRecord) (left : Option Bytes)
      (hflight : s.flights.lookup thread = some (.put cache key record .inserted)) :
      StepCase s (.failPut thread left)
        (((s.setDisk (Files.leave s.disk (s.nextTmp process cache key) left)).takeSeq
          (process cache)).finish thread)
  | failWritten (thread cache : ℕ) (key : String) (record : FingerprintRecord) (seq : ℕ)
      (left : Option Bytes)
      (hflight : s.flights.lookup thread = some (.put cache key record (.written seq))) :
      StepCase s (.failPut thread left)
        ((s.setDisk (s.disk.erase (uniqueTmpPath key (process cache) seq))).finish thread)
  | insertRead (thread cache : ℕ) (key : String) (record : FingerprintRecord)
      (hflight : s.flights.lookup thread = some (.read cache key (.found record))) :
      StepCase s (.insertRead thread)
        ((s.setMemory cache ((s.memory cache).insert key record)).finish thread)

/-- Replacing or ending a call that is no store past its first step is quiet. -/
theorem Quiet.flight {s' : SharedCaches} {thread : ℕ} {flight : Option Flight}
    (hdisk : ∀ path bytes, s'.disk.lookup path = some bytes → s.disk.lookup path = some bytes)
    (hmemory : ∀ cache key record, (s'.memory cache).lookup key = some record →
      (s.memory cache).lookup key = some record)
    (hcounter : s'.tmpCounter = s.tmpCounter)
    (hflights : ∀ other, s'.flights.lookup other =
      if other = thread then flight else s.flights.lookup other)
    (hbefore : ∀ cache key record stage, stage ≠ PutStage.started →
      s.flights.lookup thread ≠ some (.put cache key record stage))
    (hafter : ∀ cache key record stage, stage ≠ PutStage.started →
      flight ≠ some (.put cache key record stage)) : Quiet s s' := by
  refine ⟨hdisk, hmemory, fun other cache key record stage hstage => ?_, hcounter⟩
  rw [hflights]
  by_cases hother : other = thread
  · subst hother
    rw [if_pos rfl]
    exact iff_of_false (hafter cache key record stage hstage) (hbefore cache key record stage hstage)
  · rw [if_neg hother]

/-- Starting, going on with or ending a call that is no store past its first step, and nothing
else, is quiet. -/
theorem Quiet.of_flights {thread : ℕ} {flight : Option Flight} {flights : AList fun _ : ℕ => Flight}
    (hflights : ∀ other, flights.lookup other =
      if other = thread then flight else s.flights.lookup other)
    (hbefore : ∀ cache key record stage, stage ≠ PutStage.started →
      s.flights.lookup thread ≠ some (.put cache key record stage))
    (hafter : ∀ cache key record stage, stage ≠ PutStage.started →
      flight ≠ some (.put cache key record stage)) : Quiet s { s with flights := flights } :=
  Quiet.flight (fun _ _ => id) (fun _ _ _ => id) rfl hflights hbefore hafter

/-- The steps of a store. -/
theorem stepPut_case {thread cache : ℕ} {key : String} {record : FingerprintRecord} {stage : PutStage}
    {e : CacheEvent} {s' : SharedCaches}
    (hflight : s.flights.lookup thread = some (.put cache key record stage)) (hthread : e.thread = thread)
    (hstep : s.stepPut codec process thread cache key record stage e = some s') :
    StepCase codec process s e s' := by
  cases stage with
  | started =>
    cases e with
    | insertMemory t =>
      obtain rfl : t = thread := hthread
      obtain rfl := Option.some.inj hstep
      exact .insertMemory t cache key record hflight
    | failPut t left =>
      obtain rfl : t = thread := hthread
      obtain rfl := Option.some.inj hstep
      refine .quiet _ _ (Quiet.of_flights (fun other => finish_lookup t other) ?_ nofun) ?_
      · intro cache' key' record' stage' hstage heq
        rw [hflight] at heq
        cases heq
        exact hstage rfl
      · intro cache' key' record' stage' heq hstage
        rw [hflight] at heq
        cases heq
        exact absurd rfl hstage
    | _ => cases hstep
  | inserted =>
    cases e with
    | writeTmp t =>
      obtain rfl : t = thread := hthread
      obtain rfl := Option.some.inj hstep
      exact .writeTmp t cache key record hflight
    | failPut t left =>
      obtain rfl : t = thread := hthread
      obtain rfl := Option.some.inj hstep
      exact .failInserted t cache key record left hflight
    | _ => cases hstep
  | written seq =>
    cases e with
    | renameTmp t =>
      obtain rfl : t = thread := hthread
      rw [stepPut, Files.rename] at hstep
      cases hbytes : s.disk.lookup (uniqueTmpPath key (process cache) seq) with
      | none =>
        rw [hbytes] at hstep
        obtain rfl := Option.some.inj hstep
        exact .tmpLost t cache key record seq hflight hbytes
      | some bytes =>
        rw [hbytes] at hstep
        obtain rfl := Option.some.inj hstep
        exact .renamed t cache key record seq bytes hflight hbytes
    | failPut t left =>
      obtain rfl : t = thread := hthread
      obtain rfl := Option.some.inj hstep
      exact .failWritten t cache key record seq left hflight
    | _ => cases hstep

/-- The steps of a lookup. -/
theorem stepRead_case {thread cache : ℕ} {key : String} {stage : ReadStage}
    {e : CacheEvent} {s' : SharedCaches}
    (hflight : s.flights.lookup thread = some (.read cache key stage)) (hthread : e.thread = thread)
    (hstep : s.stepRead codec thread cache key stage e = some s') : StepCase codec process s e s' := by
  have hbefore : ∀ cache' key' record' stage', stage' ≠ PutStage.started →
      s.flights.lookup thread ≠ some (.put cache' key' record' stage') := by
    intro cache' key' record' stage' _ heq
    rw [hflight] at heq
    cases heq
  have hgoOn : ∀ stage', Quiet s (s.goOn thread (.read cache key stage')) := fun stage' =>
    Quiet.of_flights (fun other => goOn_lookup thread other _) hbefore nofun
  have hfinish : Quiet s (s.finish thread) :=
    Quiet.of_flights (fun other => finish_lookup thread other) hbefore nofun
  cases stage with
  | started =>
    cases e with
    | checkExists t =>
      rw [stepRead] at hstep
      cases hfile : s.disk.lookup (fingerprintPath key) with
      | none =>
        rw [hfile] at hstep
        obtain rfl := Option.some.inj hstep
        exact .quiet _ _ (hgoOn .absent) trivial
      | some bytes =>
        rw [hfile] at hstep
        obtain rfl := Option.some.inj hstep
        exact .quiet _ _ (hgoOn .present) trivial
    | _ => cases hstep
  | absent =>
    cases e with
    | removeMemory t =>
      obtain rfl := Option.some.inj hstep
      refine .quiet _ _ (Quiet.flight (fun _ _ => id) ?_ rfl (fun other => finish_lookup thread other)
        hbefore nofun) trivial
      intro cache' key' record hheld
      have hmemory := setMemory_memory (s := s) cache cache' ((s.memory cache).erase key)
      rw [finish, hmemory] at hheld
      by_cases hcache : cache' = cache
      · subst hcache
        rw [if_pos rfl] at hheld
        by_cases hkey : key' = key
        · subst hkey
          rw [AList.lookup_erase] at hheld
          cases hheld
        · rwa [AList.lookup_erase_ne hkey] at hheld
      · rwa [if_neg hcache] at hheld
    | _ => cases hstep
  | present =>
    cases e with
    | lookMemory t =>
      rw [stepRead] at hstep
      cases hheld : (s.memory cache).lookup key with
      | some record =>
        rw [hheld] at hstep
        obtain rfl := Option.some.inj hstep
        exact .quiet _ _ hfinish trivial
      | none =>
        rw [hheld] at hstep
        obtain rfl := Option.some.inj hstep
        exact .quiet _ _ (hgoOn .missed) trivial
    | _ => cases hstep
  | missed =>
    cases e with
    | readFile t =>
      rw [stepRead] at hstep
      cases hfile : s.disk.lookup (fingerprintPath key) with
      | none =>
        rw [hfile] at hstep
        obtain rfl := Option.some.inj hstep
        exact .quiet _ _ (hgoOn .absent) trivial
      | some bytes =>
        rw [hfile] at hstep
        simp only at hstep
        cases hread : codec.fromSlice bytes with
        | some record =>
          rw [hread] at hstep
          obtain rfl := Option.some.inj hstep
          exact .quiet _ _ (hgoOn (.found record)) trivial
        | none =>
          rw [hread] at hstep
          obtain rfl := Option.some.inj hstep
          exact .quiet _ _ hfinish trivial
    | failRead t =>
      obtain rfl := Option.some.inj hstep
      exact .quiet _ _ hfinish trivial
    | _ => cases hstep
  | found record =>
    cases e with
    | insertRead t =>
      obtain rfl : t = thread := hthread
      obtain rfl := Option.some.inj hstep
      exact .insertRead t cache key record hflight
    | _ => cases hstep

/-- The steps of a pruning. -/
theorem stepPrune_case {thread cache : ℕ} {e : CacheEvent} {s' : SharedCaches}
    (hflight : s.flights.lookup thread = some (.prune cache))
    (hstep : s.stepPrune thread cache e = some s') : StepCase codec process s e s' := by
  have hbefore : ∀ cache' key' record' stage', stage' ≠ PutStage.started →
      s.flights.lookup thread ≠ some (.put cache' key' record' stage') := by
    intro cache' key' record' stage' _ heq
    rw [hflight] at heq
    cases heq
  cases e with
  | removeFile t path =>
    obtain rfl := Option.some.inj hstep
    refine .quiet _ _ ⟨fun other bytes hfile => ?_, fun _ _ _ => id, fun _ _ _ _ _ _ => Iff.rfl, rfl⟩
      trivial
    rw [setDisk] at hfile
    by_cases hpath : other = path
    · subst hpath
      rw [AList.lookup_erase] at hfile
      cases hfile
    · rwa [AList.lookup_erase_ne hpath] at hfile
  | clearMemory t =>
    obtain rfl := Option.some.inj hstep
    refine .quiet _ _ (Quiet.flight (fun _ _ => id) ?_ rfl (fun other => finish_lookup thread other)
      hbefore nofun) trivial
    intro cache' key' record hheld
    have hmemory := setMemory_memory (s := s) cache cache' ∅
    rw [finish, hmemory] at hheld
    by_cases hcache : cache' = cache
    · rw [if_pos hcache, AList.lookup_empty] at hheld
      cases hheld
    · rwa [if_neg hcache] at hheld
  | _ => cases hstep

/-- Starting a call is quiet. -/
theorem start_case {thread : ℕ} {flight : Flight} {e : CacheEvent} {s' : SharedCaches}
    (hstep : s.start thread flight = some s')
    (hafter : ∀ cache key record stage, stage ≠ PutStage.started →
      flight ≠ .put cache key record stage)
    (hkeeps : s.KeepsCoherent codec process e) : StepCase codec process s e s' := by
  rw [start] at hstep
  cases hflight : s.flights.lookup thread with
  | some flight' =>
    rw [hflight] at hstep
    cases hstep
  | none =>
    rw [hflight] at hstep
    obtain rfl := Option.some.inj hstep
    refine .quiet _ _ (Quiet.of_flights (fun other => goOn_lookup thread other flight) ?_ ?_) hkeeps
    · intro cache key record stage _ heq
      rw [hflight] at heq
      cases heq
    · exact fun cache key record stage hstage heq =>
        hafter cache key record stage hstage (Option.some.inj heq)

/-- Every step of the machine is one of the cases. -/
theorem step_case {e : CacheEvent} {s' : SharedCaches}
    (hstep : (machine codec process).step s e = some s') : StepCase codec process s e s' := by
  have hflight : s.stepFlight codec process e.thread e = some s' → StepCase codec process s e s' := by
    intro hstep
    rw [stepFlight] at hstep
    cases hlookup : s.flights.lookup e.thread with
    | none =>
      rw [hlookup] at hstep
      cases hstep
    | some flight =>
      rw [hlookup] at hstep
      cases flight with
      | put cache key record stage => exact stepPut_case codec process hlookup rfl hstep
      | read cache key stage => exact stepRead_case codec process hlookup rfl hstep
      | prune cache => exact stepPrune_case codec process hlookup hstep
  cases e with
  | beginPut thread cache key fingerprint artifactHash now =>
    refine start_case codec process hstep (fun _ _ _ _ hstage heq => ?_) trivial
    cases heq
    exact hstage rfl
  | beginRead thread cache key => exact start_case codec process hstep nofun trivial
  | beginPrune thread cache => exact start_case codec process hstep nofun trivial
  | _ => exact hflight hstep

/-! ## Temporary files -/

/-- The temporary files of the stores in progress are their own: their numbers were taken, and
the files hold the records of their stores. -/
structure TmpOwned (s : SharedCaches) : Prop where
  taken : ∀ thread cache key record seq,
    s.flights.lookup thread = some (.put cache key record (.written seq)) →
      seq < s.tmpCounter (process cache)
  holds : ∀ thread cache key record seq bytes,
    s.flights.lookup thread = some (.put cache key record (.written seq)) →
      s.disk.lookup (uniqueTmpPath key (process cache) seq) = some bytes → bytes = codec.toVec record

/-- No new temporary files of stores in progress keep them owned. -/
theorem TmpOwned.mono {s' : SharedCaches} (howned : TmpOwned codec process s)
    (hflights : ∀ thread cache key record seq,
      s'.flights.lookup thread = some (.put cache key record (.written seq)) →
        s.flights.lookup thread = some (.put cache key record (.written seq)))
    (hcounter : ∀ p, s.tmpCounter p ≤ s'.tmpCounter p)
    (hdisk : ∀ key p seq bytes, seq < s.tmpCounter p →
      s'.disk.lookup (uniqueTmpPath key p seq) = some bytes →
        s.disk.lookup (uniqueTmpPath key p seq) = some bytes) : TmpOwned codec process s' := by
  constructor
  · intro thread cache key record seq hflight
    have htaken := howned.taken thread cache key record seq (hflights _ _ _ _ _ hflight)
    exact htaken.trans_le (hcounter _)
  · intro thread cache key record seq bytes hflight hfile
    have hbefore := hflights _ _ _ _ _ hflight
    exact howned.holds thread cache key record seq bytes hbefore
      (hdisk key (process cache) seq bytes (howned.taken thread cache key record seq hbefore) hfile)

/-- Returning from a call starts no store. -/
theorem of_finish_lookup {thread other : ℕ} {flight : Flight}
    (hflight : (s.finish thread).flights.lookup other = some flight) :
    s.flights.lookup other = some flight := by
  rw [finish_lookup] at hflight
  by_cases hother : other = thread
  · rw [if_pos hother] at hflight
    cases hflight
  · rwa [if_neg hother] at hflight

/-- Going on to a stage before the temporary file adds no store with one. -/
theorem of_goOn_lookup {thread other cache cache' : ℕ} {key key' : String}
    {record record' : FingerprintRecord} {stage : PutStage} {seq : ℕ}
    (hstage : stage ≠ .written seq)
    (hflight : (s.goOn thread (.put cache key record stage)).flights.lookup other =
      some (.put cache' key' record' (.written seq))) :
    s.flights.lookup other = some (.put cache' key' record' (.written seq)) := by
  rw [goOn_lookup] at hflight
  by_cases hother : other = thread
  · rw [if_pos hother] at hflight
    cases hflight
    exact absurd rfl hstage
  · rwa [if_neg hother] at hflight

/-- The counters after taking a number. -/
theorem takeSeq_tmpCounter (p q : ℕ) :
    (s.takeSeq p).tmpCounter q = if q = p then s.tmpCounter p + 1 else s.tmpCounter q :=
  Function.update_apply s.tmpCounter p _ q

/-- Taking a number leaves no counter behind. -/
theorem le_takeSeq (p q : ℕ) : s.tmpCounter q ≤ (s.takeSeq p).tmpCounter q := by
  rw [takeSeq_tmpCounter]
  by_cases hq : q = p
  · rw [if_pos hq, hq]
    exact Nat.le_succ _
  · rw [if_neg hq]

/-- The next temporary file of a process is none of those whose numbers were taken. -/
theorem uniqueTmpPath_ne_nextTmp {key key' : String} {cache p seq : ℕ} (htaken : seq < s.tmpCounter p) :
    uniqueTmpPath key' p seq ≠ s.nextTmp process cache key := by
  intro heq
  rw [nextTmp, uniqueTmpPath, uniqueTmpPath, RecordPath.tmp.injEq] at heq
  obtain ⟨_, rfl, rfl⟩ := heq
  exact absurd htaken (lt_irrefl _)

variable {codec process}

/-- Every step keeps the temporary files owned. -/
theorem TmpOwned.step {e : CacheEvent} {s' : SharedCaches} (howned : TmpOwned codec process s)
    (hcase : StepCase codec process s e s') : TmpOwned codec process s' := by
  cases hcase with
  | quiet _ _ hquiet hkeeps =>
    exact howned.mono codec process
      (fun thread cache key record seq =>
        (hquiet.flights thread cache key record (.written seq) nofun).mp)
      (fun p => (congrFun hquiet.tmpCounter p).ge) (fun _ _ _ _ _ => hquiet.disk _ _)
  | insertMemory thread cache key record hflight =>
    exact howned.mono codec process (fun _ _ _ _ _ => of_goOn_lookup nofun) (fun _ => le_refl _)
      (fun _ _ _ _ _ => id)
  | writeTmp thread cache key record hflight =>
    constructor
    · intro other cache' key' record' seq hother
      rw [goOn_lookup] at hother
      by_cases heq : other = thread
      · rw [if_pos heq] at hother
        cases hother
        exact (Nat.lt_succ_self _).trans_eq (Function.update_self _ _ s.tmpCounter).symm
      · rw [if_neg heq] at hother
        exact (howned.taken other cache' key' record' seq hother).trans_le (le_takeSeq _ _)
    · intro other cache' key' record' seq bytes hother hfile
      rw [goOn_lookup] at hother
      by_cases heq : other = thread
      · rw [if_pos heq] at hother
        cases hother
        exact (Option.some.inj ((AList.lookup_insert _).symm.trans hfile)).symm
      · rw [if_neg heq] at hother
        have htaken := howned.taken other cache' key' record' seq hother
        have hbefore := (AList.lookup_insert_ne (uniqueTmpPath_ne_nextTmp process htaken)).symm.trans hfile
        exact howned.holds other cache' key' record' seq bytes hother hbefore
  | renamed thread cache key record seq bytes hflight hbytes =>
    refine howned.mono codec process (fun _ _ _ _ _ => of_finish_lookup) (fun _ => le_refl _) ?_
    intro key' p seq' bytes' _ hfile
    have hafter := (AList.lookup_insert_ne
      (uniqueTmpPath_ne_fingerprintPath key' key p seq')).symm.trans hfile
    by_cases hpath : uniqueTmpPath key' p seq' = uniqueTmpPath key (process cache) seq
    · rw [hpath, AList.lookup_erase] at hafter
      cases hafter
    · rwa [AList.lookup_erase_ne hpath] at hafter
  | tmpLost thread cache key record seq hflight hnone =>
    exact howned.mono codec process (fun _ _ _ _ _ => of_finish_lookup) (fun _ => le_refl _)
      (fun _ _ _ _ _ => id)
  | failInserted thread cache key record left hflight =>
    refine howned.mono codec process (fun _ _ _ _ _ => of_finish_lookup) (fun _ => le_takeSeq _ _) ?_
    intro key' p seq' bytes htaken hfile
    cases left with
    | none => exact hfile
    | some part =>
      exact (AList.lookup_insert_ne (uniqueTmpPath_ne_nextTmp process htaken)).symm.trans hfile
  | failWritten thread cache key record seq left hflight =>
    refine howned.mono codec process (fun _ _ _ _ _ => of_finish_lookup) (fun _ => le_refl _) ?_
    intro key' p seq' bytes _ hfile
    by_cases hpath : uniqueTmpPath key' p seq' = uniqueTmpPath key (process cache) seq
    · exact absurd (hpath ▸ hfile) (by rw [finish, setDisk, AList.lookup_erase]; exact nofun)
    · exact (AList.lookup_erase_ne hpath).symm.trans hfile
  | insertRead thread cache key record hflight =>
    exact howned.mono codec process (fun _ _ _ _ _ => of_finish_lookup) (fun _ => le_refl _)
      (fun _ _ _ _ _ => id)

/-! ## Coherence -/

/-- What a file says depends on the file only. -/
theorem fileFingerprint_congr {s' : SharedCaches} {key : String}
    (hfile : s'.disk.lookup (fingerprintPath key) = s.disk.lookup (fingerprintPath key)) :
    s'.fileFingerprint codec key = s.fileFingerprint codec key := by
  rw [fileFingerprint, hfile, fileFingerprint]

/-- A file that is kept or removed says what it said. -/
theorem FileSays.mono {s' : SharedCaches} {key fingerprint : String}
    (hfileSaid : s.FileSays codec key fingerprint)
    (hdisk : ∀ bytes, s'.disk.lookup (fingerprintPath key) = some bytes →
      s.disk.lookup (fingerprintPath key) = some bytes) : s'.FileSays codec key fingerprint := by
  cases hfile : s'.disk.lookup (fingerprintPath key) with
  | none => exact Or.inl hfile
  | some bytes =>
    have hbefore := hdisk bytes hfile
    refine Or.inr ?_
    rw [fileFingerprint_congr (hfile.trans hbefore.symm)]
    exact hfileSaid.resolve_left (by rw [hbefore]; exact nofun)

/-- A file that is as before says what it said. -/
theorem fileSays_congr {s' : SharedCaches} {key fingerprint : String}
    (hfile : s'.disk.lookup (fingerprintPath key) = s.disk.lookup (fingerprintPath key)) :
    s'.FileSays codec key fingerprint ↔ s.FileSays codec key fingerprint := by
  rw [FileSays, FileSays, hfile, fileFingerprint_congr hfile]

/-- A pending store is pending for as long as its thread does not return. -/
theorem Pending.finish_or (thread : ℕ) {cache : ℕ} {key fingerprint : String}
    (hpending : s.Pending cache key fingerprint) :
    (s.finish thread).Pending cache key fingerprint ∨
      ∃ record stage, s.flights.lookup thread = some (.put cache key record stage) := by
  obtain ⟨other, record, stage, hflight, hstage, hfingerprint⟩ := hpending
  by_cases hother : other = thread
  · subst hother
    exact Or.inr ⟨record, stage, hflight⟩
  · refine Or.inl ⟨other, record, stage, ?_, hstage, hfingerprint⟩
    rw [finish_lookup, if_neg hother]
    exact hflight

/-- A pending store stays pending when a thread with another call or at its first step goes
on. -/
theorem Pending.goOn {cache thread : ℕ} {key fingerprint : String} {flight : Flight}
    (hpending : s.Pending cache key fingerprint)
    (hsame : ∀ record stage, s.flights.lookup thread = some (.put cache key record stage) →
      stage ≠ .started → ∃ stage', flight = .put cache key record stage' ∧ stage' ≠ .started) :
    (s.goOn thread flight).Pending cache key fingerprint := by
  obtain ⟨other, record, stage, hflight, hstage, hfingerprint⟩ := hpending
  by_cases hother : other = thread
  · subst hother
    obtain ⟨stage', rfl, hstage'⟩ := hsame record stage hflight hstage
    exact ⟨other, record, stage', by rw [goOn_lookup, if_pos rfl], hstage', hfingerprint⟩
  · exact ⟨other, record, stage, by rw [goOn_lookup, if_neg hother]; exact hflight, hstage, hfingerprint⟩

/-- When a store gives up and the files of the keys stay, the caches stay coherent if it leaves
them so. -/
theorem Coherent.finish {s' : SharedCaches} (hcoherent : Coherent codec s) {thread cache : ℕ}
    {key : String} {record : FingerprintRecord} {stage : PutStage}
    (hflight : s.flights.lookup thread = some (.put cache key record stage))
    (hleaves : s.LeavesCoherent codec thread cache key)
    (hdisk : ∀ other, s'.disk.lookup (fingerprintPath other) = s.disk.lookup (fingerprintPath other))
    (hmemory : s'.memory = s.memory) (hflights : s'.flights = (s.finish thread).flights) :
    Coherent codec s' := by
  intro other key' held hheld
  rw [hmemory] at hheld
  rw [fileSays_congr (hdisk key'), Pending, hflights]
  obtain hfileSaid | hpending := hcoherent other key' held hheld
  · exact Or.inl hfileSaid
  · obtain hpending | ⟨record', stage', hthread⟩ := hpending.finish_or thread
    · exact Or.inr hpending
    · rw [hflight] at hthread
      cases hthread
      exact hleaves held hheld

/-- A file after a rename of a temporary file that holds a record says its fingerprint. -/
theorem fileFingerprint_rename (codec : RecordCodec) (record : FingerprintRecord) {disk : Directory}
    {thread : ℕ} {key : String} :
    ((s.setDisk (disk.insert (fingerprintPath key) (codec.toVec record))).finish
      thread).fileFingerprint codec key = some record.fingerprint := by
  rw [fileFingerprint, finish, setDisk, AList.lookup_insert, Option.bind_some, codec.fromSlice_toVec,
    Option.map_some]

/-- The file of another key after a rename. -/
theorem lookup_rename {key key' : String} (hkey : key' ≠ key) (p seq : ℕ) (bytes : Bytes) :
    ((s.disk.erase (uniqueTmpPath key p seq)).insert (fingerprintPath key) bytes).lookup
      (fingerprintPath key') = s.disk.lookup (fingerprintPath key') := by
  have hpath : fingerprintPath key' ≠ fingerprintPath key := by rwa [ne_eq, fingerprintPath_inj]
  rw [AList.lookup_insert_ne hpath,
    AList.lookup_erase_ne (uniqueTmpPath_ne_fingerprintPath key key' p seq).symm]

/-- Leaving a part of a temporary file leaves the files of the keys. -/
theorem lookup_leave (disk : Directory) (cache : ℕ) (key key' : String) (left : Option Bytes) :
    (Files.leave disk (s.nextTmp process cache key) left).lookup (fingerprintPath key') =
      disk.lookup (fingerprintPath key') := by
  cases left with
  | none => rfl
  | some part => exact AList.lookup_insert_ne (uniqueTmpPath_ne_fingerprintPath key key' _ _).symm

/-- Inserting a record into a memory keeps the caches coherent, if the record agrees with its
file or is that of a store in progress. -/
theorem coherent_insert {s' : SharedCaches} {cache : ℕ} {key : String}
    {record : FingerprintRecord}
    (hmemory : s'.memory = (s.setMemory cache ((s.memory cache).insert key record)).memory)
    (hkept : ∀ cache' key' held, (s.memory cache').lookup key' = some held →
      s'.FileSays codec key' held.fingerprint ∨ s'.Pending cache' key' held.fingerprint)
    (hnew : s'.FileSays codec key record.fingerprint ∨ s'.Pending cache key record.fingerprint) :
    Coherent codec s' := by
  intro cache' key' held hheld
  rw [hmemory, setMemory_memory] at hheld
  by_cases hcache : cache' = cache
  · subst hcache
    rw [if_pos rfl] at hheld
    by_cases hkey : key' = key
    · subst hkey
      rw [AList.lookup_insert] at hheld
      cases hheld
      exact hnew
    · rw [AList.lookup_insert_ne hkey] at hheld
      exact hkept cache' key' held hheld
  · rw [if_neg hcache] at hheld
    exact hkept cache' key' held hheld

/-- A rename that brings the fingerprint that all memories with the key hold keeps the caches
coherent. -/
theorem Coherent.rename (hcoherent : Coherent codec s) {thread cache : ℕ} {key : String}
    {record : FingerprintRecord} {seq : ℕ}
    (hflight : s.flights.lookup thread = some (.put cache key record (.written seq)))
    (hmemories : ∀ other held, (s.memory other).lookup key = some held →
      held.fingerprint = record.fingerprint ∨ (s.finish thread).Pending other key held.fingerprint) :
    Coherent codec ((s.setDisk ((s.disk.erase (uniqueTmpPath key (process cache) seq)).insert
      (fingerprintPath key) (codec.toVec record))).finish thread) := by
  intro other key' held hheld
  by_cases hkey : key' = key
  · subst hkey
    obtain heq | hpending := hmemories other held hheld
    · rw [heq]
      exact Or.inl (Or.inr (fileFingerprint_rename codec record))
    · exact Or.inr hpending
  · refine (hcoherent other key' held hheld).imp (fun hfileSaid => ?_) fun hpending => ?_
    · exact (fileSays_congr (lookup_rename hkey _ seq (codec.toVec record))).mpr hfileSaid
    · obtain hpending | ⟨record', stage', hthread⟩ := hpending.finish_or thread
      · exact hpending
      · have heq := hflight.symm.trans hthread
        cases heq
        exact absurd rfl hkey

/-- A step that meets the condition keeps the caches coherent. -/
theorem Coherent.step {e : CacheEvent} {s' : SharedCaches} (hcoherent : Coherent codec s)
    (howned : TmpOwned codec process s) (hcase : StepCase codec process s e s')
    (hkeeps : s.KeepsCoherent codec process e) : Coherent codec s' := by
  cases hcase with
  | quiet _ _ hquiet _ =>
    intro cache key held hheld
    obtain hfileSaid | ⟨thread, record, stage, hflight, hstage, hfingerprint⟩ :=
      hcoherent cache key held (hquiet.memory cache key held hheld)
    · exact Or.inl (hfileSaid.mono (hquiet.disk _))
    · exact Or.inr ⟨thread, record, stage,
        (hquiet.flights thread cache key record stage hstage).mpr hflight, hstage, hfingerprint⟩
  | insertMemory thread cache key record hflight =>
    refine coherent_insert rfl (fun cache' key' held hheld => ?_)
      (Or.inr ⟨thread, record, .inserted, by rw [goOn_lookup, if_pos rfl], nofun, rfl⟩)
    refine (hcoherent cache' key' held hheld).imp_right fun hpending => ?_
    refine Pending.goOn (s := s.setMemory cache ((s.memory cache).insert key record)) hpending ?_
    intro record' stage hlookup hstage
    have heq := hflight.symm.trans hlookup
    cases heq
    exact absurd rfl hstage
  | writeTmp thread cache key record hflight =>
    intro cache' key' held hheld
    refine (hcoherent cache' key' held hheld).imp (fun hfileSaid => ?_) fun hpending => ?_
    · refine hfileSaid.mono fun bytes hfile => ?_
      exact (AList.lookup_insert_ne
        (uniqueTmpPath_ne_fingerprintPath key key' _ _).symm).symm.trans hfile
    · refine Pending.goOn (s := (s.setDisk _).takeSeq _) hpending fun record' stage hlookup _ => ?_
      have heq := hflight.symm.trans hlookup
      cases heq
      exact ⟨.written _, rfl, nofun⟩
  | renamed thread cache key record seq bytes hflight hbytes =>
    have hmemories := hkeeps cache key record seq hflight
    rw [hbytes, if_neg nofun] at hmemories
    rw [howned.holds thread cache key record seq bytes hflight hbytes]
    exact hcoherent.rename hflight hmemories
  | tmpLost thread cache key record seq hflight hnone =>
    have hleaves := hkeeps cache key record seq hflight
    rw [if_pos hnone] at hleaves
    exact hcoherent.finish hflight hleaves (fun _ => rfl) rfl rfl
  | failInserted thread cache key record left hflight =>
    exact hcoherent.finish hflight (hkeeps cache key record .inserted hflight nofun)
      (fun other => lookup_leave s.disk cache key other left) rfl rfl
  | failWritten thread cache key record seq left hflight =>
    exact hcoherent.finish hflight (hkeeps cache key record (.written seq) hflight nofun)
      (fun other => AList.lookup_erase_ne (uniqueTmpPath_ne_fingerprintPath key other _ _).symm) rfl rfl
  | insertRead thread cache key record hflight =>
    have hfinish : ∀ {cache' : ℕ} {key' fingerprint : String}, s.Pending cache' key' fingerprint →
        (s.finish thread).Pending cache' key' fingerprint := by
      intro cache' key' fingerprint hpending
      refine (hpending.finish_or thread).resolve_right fun hthread => ?_
      obtain ⟨record', stage', hthread⟩ := hthread
      have heq := hflight.symm.trans hthread
      cases heq
    exact coherent_insert rfl
      (fun cache' key' held hheld => (hcoherent cache' key' held hheld).imp_right hfinish)
      ((hkeeps cache key record hflight).imp_right hfinish)

/-! ## When no store is in progress -/

/-- Without stores in progress nothing is pending. -/
theorem NoPutInFlight.not_pending (hquiescent : NoPutInFlight s) {cache : ℕ} {key fingerprint : String} :
    ¬ s.Pending cache key fingerprint := by
  intro hpending
  obtain ⟨thread, record, stage, hflight, _⟩ := hpending
  have hput := hquiescent ⟨thread, _⟩ (List.of_mem_dlookup hflight)
  cases hput

/-- The memories are transparent when every record in them says what its file says. -/
theorem transparent_iff : Transparent codec process s ↔
    ∀ cache key held, (s.memory cache).lookup key = some held → s.FileSays codec key held.fingerprint := by
  have hget : ∀ cache key, ((s.view process cache).get codec key none).1 =
      (s.disk.lookup (fingerprintPath key)).bind fun bytes =>
        (((s.memory cache).lookup key).or (codec.fromSlice bytes)).map FingerprintRecord.fingerprint :=
    fun cache key => (s.view process cache).get_eq codec key
  constructor
  · intro htransparent cache key held hheld
    cases hfile : s.disk.lookup (fingerprintPath key) with
    | none => exact Or.inl hfile
    | some bytes =>
      have hanswer := (htransparent cache key).1
      rw [hget, hfile, hheld] at hanswer
      exact Or.inr hanswer.symm
  · intro hfileSaid cache key
    have hanswer : ((s.view process cache).get codec key none).1 = s.fileFingerprint codec key := by
      rw [hget]
      cases hheld : (s.memory cache).lookup key with
      | none =>
        rw [fileFingerprint, Option.map_bind]
        rfl
      | some held =>
        obtain hnone | hfile := hfileSaid cache key held hheld
        · rw [fileFingerprint, hnone]
          rfl
        · rw [hfile]
          cases hbytes : s.disk.lookup (fingerprintPath key) with
          | none =>
            rw [fileFingerprint, hbytes] at hfile
            cases hfile
          | some bytes => rfl
    exact ⟨hanswer, fun fingerprint => by rw [LocalCache.matchesFingerprint_iff, hanswer]⟩

/-- Coherent caches are transparent once no store is in progress. -/
theorem Coherent.transparent (hcoherent : Coherent codec s) (hquiescent : NoPutInFlight s) :
    Transparent codec process s :=
  transparent_iff.mpr fun cache key held hheld =>
    (hcoherent cache key held hheld).resolve_right hquiescent.not_pending

/-- A step after which no store is in progress and the caches are transparent met the
condition. -/
theorem Transparent.keepsCoherent {e : CacheEvent} {s' : SharedCaches}
    (htransparent : Transparent codec process s') (howned : TmpOwned codec process s)
    (hcase : StepCase codec process s e s') : s.KeepsCoherent codec process e := by
  have hfileSaid := transparent_iff.mp htransparent
  cases hcase with
  | quiet _ _ _ hkeeps => exact hkeeps
  | insertMemory => trivial
  | writeTmp => trivial
  | renamed thread cache key record seq bytes hflight hbytes =>
    intro cache' key' record' seq' hflight'
    have heq := hflight.symm.trans hflight'
    cases heq
    rw [hbytes, if_neg nofun]
    intro other held hheld
    have hfile := hfileSaid other key held hheld
    rw [howned.holds thread cache key record seq bytes hflight hbytes] at hfile
    refine Or.inl (Option.some.inj ?_)
    rw [← fileFingerprint_rename codec record]
    refine (hfile.resolve_left ?_).symm
    rw [SharedCaches.finish, setDisk, AList.lookup_insert]
    exact nofun
  | tmpLost thread cache key record seq hflight hnone =>
    intro cache' key' record' seq' hflight'
    have heq := hflight.symm.trans hflight'
    cases heq
    rw [if_pos hnone]
    exact fun held hheld => Or.inl (hfileSaid cache key held hheld)
  | failInserted thread cache key record left hflight =>
    intro cache' key' record' stage hflight' _
    have heq := hflight.symm.trans hflight'
    cases heq
    exact fun held hheld =>
      Or.inl ((fileSays_congr (lookup_leave s.disk cache key key left)).mp (hfileSaid cache key held hheld))
  | failWritten thread cache key record seq left hflight =>
    intro cache' key' record' stage hflight' _
    have heq := hflight.symm.trans hflight'
    cases heq
    exact fun held hheld => Or.inl ((fileSays_congr (AList.lookup_erase_ne
      (uniqueTmpPath_ne_fingerprintPath key key _ _).symm)).mp (hfileSaid cache key held hheld))
  | insertRead thread cache key record hflight =>
    intro cache' key' record' hflight'
    have heq := hflight.symm.trans hflight'
    cases heq
    refine Or.inl (hfileSaid cache key record ?_)
    rw [SharedCaches.finish, setMemory_memory, if_pos rfl, AList.lookup_insert]

end Steps

/-- Caches that were just opened are coherent and own no temporary files. -/
theorem opened_coherent (disk : Directory) :
    Coherent codec (opened disk) ∧ TmpOwned codec process (opened disk) := by
  have hnone : ∀ thread, (opened disk).flights.lookup thread = none := AList.lookup_empty
  refine ⟨fun cache key record hheld => ?_, fun thread _ _ _ _ hflight => ?_,
    fun thread _ _ _ _ _ hflight => ?_⟩
  · exact absurd hheld (by rw [opened, AList.lookup_empty]; exact nofun)
  · exact absurd hflight (by rw [hnone]; exact nofun)
  · exact absurd hflight (by rw [hnone]; exact nofun)

/-- Along a run whose steps meet the condition the caches stay coherent. -/
theorem Coherent.run {s t : SharedCaches} {events : List CacheEvent} (hcoherent : Coherent codec s)
    (howned : TmpOwned codec process s) (hrun : (machine codec process).exec s events = some t)
    (hkeeps : RunKeepsCoherent codec process s events) : Coherent codec t := by
  induction events generalizing s with
  | nil =>
    obtain rfl := Option.some.inj hrun
    exact hcoherent
  | cons e events ih =>
    obtain ⟨s', hstep, hrest⟩ := Option.bind_eq_some_iff.mp hrun
    have hcase := step_case codec process hstep
    exact ih (hcoherent.step howned hcase hkeeps.1) (howned.step hcase) hrest (hkeeps.2 s' hstep)

/-- One thread stores a fingerprint, up to the rename. -/
def oneStore : List CacheEvent :=
  [.beginPut 0 0 "a" "v1" none 0, .insertMemory 0, .writeTmp 0]

/-- The caches when the store is about to rename its file. -/
def written : SharedCaches :=
  Option.get ((machine (.ofTable sampleRecords) fun _ => 1).exec (opened ∅) oneStore) (by decide)

/-- Two threads store different fingerprints for one key in the same cache. The one that comes
second in memory renames its file first. -/
def racingStores : List CacheEvent :=
  [.beginPut 0 0 "a" "v1" none 0, .beginPut 1 0 "a" "v2" none 0, .insertMemory 0, .insertMemory 1,
    .writeTmp 0, .writeTmp 1, .renameTmp 1, .renameTmp 0]

/-- The caches after the two racing stores. -/
def raced : SharedCaches :=
  Option.get ((machine (.ofTable sampleRecords) fun _ => 1).exec (opened ∅) racingStores) (by decide)

end Forge.Cache.SharedCaches
