import Forge.Cache.CompositeCache
import Forge.Common.Contracts
import Mathlib.Data.Set.Insert

/-!
# What is restored for a cached task

A task that is answered from a cache should get the artifacts that were packed for its key and its
fingerprint. The local cache finds them by the hash in its record, but the remote cache has them
under the key alone, and a record that was taken from it names no hash. So this holds as long as a
call asks the remote cache for artifacts only when the last ones put there for the key are those of
its fingerprint.
-/

namespace Forge.Cache

open Forge.Common
open Forge.Executor

/-- What was packed, and for what. -/
abbrev Packed := Set (Executor.CacheEntry × Bytes)

/-- A task with artifacts that was answered from a cache got a blob that was packed for its key and
fingerprint. -/
def Restored (task : Task) (packed : Packed) (result : CompositeResult) : Prop :=
  ∀ entry, task.cache = some entry → task.artifacts ≠ [] → result.result.status? = some .cached →
    ∃ blob, result.unpacked = some blob ∧ (entry, blob) ∈ packed

/-- What was packed stays packed. -/
theorem Restored.mono {task : Task} {packed packed' : Packed} {result : CompositeResult}
    (hrestored : Restored task packed result) (hle : packed ≤ packed') : Restored task packed' result := by
  intro entry hentry hartifacts hcached
  obtain ⟨blob, hunpacked, hmem⟩ := hrestored entry hentry hartifacts hcached
  exact ⟨blob, hunpacked, hle hmem⟩

/-- The condition on an operation of a call for an entry. Only the record of the fingerprint is used to
restore artifacts, the remote cache is asked for them only when the last ones put there are those of
the fingerprint, different blobs have different hashes, and unpacking works. -/
def HarmlessOp (codec : RecordCodec) (blobHash : Bytes → String) (entry : Executor.CacheEntry) (s : CompositeState) :
    CompositeOp → Prop
  | .artifactHash client key fault =>
    match ((s.clients client).cache.readRecord codec key fault).1 with
    | .ok (some record) => record.artifactHash = none ∨ record.fingerprint = entry.fingerprint
    | _ => True
  | .getArtifact key => s.lastUpload key = some entry
  | .packArtifacts _ (.ok blob) =>
    ∀ other ∈ s.packed, blobHash other.2 = blobHash blob → other.2 = blob
  | .unpackArtifacts _ fault => fault = none
  | _ => True

instance (codec : RecordCodec) (blobHash : Bytes → String) (entry : Executor.CacheEntry) (s : CompositeState) :
    (op : CompositeOp) → Decidable (HarmlessOp codec blobHash entry s op)
  | .artifactHash client key fault =>
    match h : ((s.clients client).cache.readRecord codec key fault).1 with
    | .ok (some record) =>
      decidable_of_iff (record.artifactHash = none ∨ record.fingerprint = entry.fingerprint)
        (by rw [HarmlessOp, h])
    | .ok none => isTrue (by rw [HarmlessOp, h]; trivial)
    | .error _ => isTrue (by rw [HarmlessOp, h]; trivial)
  | .getArtifact key => inferInstanceAs (Decidable (s.lastUpload key = some entry))
  | .packArtifacts _ (.ok blob) =>
    inferInstanceAs (Decidable (∀ other ∈ s.packed, blobHash other.2 = blobHash blob → other.2 = blob))
  | .packArtifacts _ (.error _) => isTrue trivial
  | .unpackArtifacts _ fault => inferInstanceAs (Decidable (fault = none))
  | .matchesLocal _ _ _ _ => isTrue trivial
  | .putLocal _ _ _ _ _ _ => isTrue trivial
  | .getObject _ _ _ => isTrue trivial
  | .putObject _ _ _ _ => isTrue trivial
  | .recordHit _ => isTrue trivial
  | .recordError _ => isTrue trivial
  | .getFingerprint _ => isTrue trivial
  | .putFingerprint _ _ => isTrue trivial
  | .putArtifact _ _ => isTrue trivial

/-- The entry of a call in a list. -/
def entryOf {Env : Type} (calls : List (CompositeCall Env)) (i : ℕ) : Option Executor.CacheEntry :=
  calls[i]?.bind fun call => call.task.cache

/-- The condition on a step of calls. -/
def Harmless {Env : Type} (codec : RecordCodec) (blobHash : Bytes → String) (calls : List (CompositeCall Env))
    (s : CompositeRun) (i : ℕ) : Prop :=
  match entryOf calls i, s.programs[i]? with
  | some entry, some (.next op _) => HarmlessOp codec blobHash entry s.shared op
  | _, _ => True

instance {Env : Type} (codec : RecordCodec) (blobHash : Bytes → String) (calls : List (CompositeCall Env))
    (s : CompositeRun) (i : ℕ) : Decidable (Harmless codec blobHash calls s i) :=
  match hentry : entryOf calls i, hprogram : s.programs[i]? with
  | some entry, some (.next op _) =>
    decidable_of_iff (HarmlessOp codec blobHash entry s.shared op) (by rw [Harmless, hentry, hprogram])
  | some _, some (.done _) => isTrue (by rw [Harmless, hentry, hprogram]; trivial)
  | some _, none => isTrue (by rw [Harmless, hentry, hprogram]; trivial)
  | none, _ => isTrue (by rw [Harmless, hentry]; trivial)

/-! ## The contract of a call -/

section Contracts

variable (blobHash : Bytes → String)

/-- A blob with the hash was packed for an entry. -/
def PackedAs (packed : Packed) (entry : Executor.CacheEntry) (hash : String) : Prop :=
  ∃ blob, (entry, blob) ∈ packed ∧ blobHash blob = hash

/-- What a call for an entry does with the caches. -/
def Allowed (entry : Executor.CacheEntry) (packed : Packed) : CompositeOp → Prop
  | .putLocal _ key fingerprint artifactHash _ _ =>
    ∀ hash, artifactHash = some hash → PackedAs blobHash packed ⟨key, fingerprint⟩ hash
  | .artifactHash _ key _ => key = entry.key
  | .putObject _ hash bytes _ => blobHash bytes = hash ∧ ∃ other, (other, bytes) ∈ packed
  | .putArtifact other data => (other, data) ∈ packed
  | _ => True

/-- What a call for an entry relies on. -/
def Promised (entry : Executor.CacheEntry) (packed : Packed) : (op : CompositeOp) → op.Response → Prop
  | .artifactHash _ _ _, response => ∀ hash, response = some hash → PackedAs blobHash packed entry hash
  | .getObject _ hash _, response => ∀ data, response = some data →
      ∀ other ∈ packed, blobHash other.2 = hash → other.2 = data
  | .getArtifact _, response => ∃ data, response = some data ∧ (entry, data) ∈ packed
  | .packArtifacts other _, response => ∀ blob, response = .ok blob → (other, blob) ∈ packed
  | .unpackArtifacts _ _, response => response = .ok ()
  | _, _ => True

variable {blobHash} in
/-- What was packed stays packed. -/
theorem PackedAs.mono {packed packed' : Packed} {entry : Executor.CacheEntry} {hash : String}
    (hpacked : PackedAs blobHash packed entry hash) (hle : packed ≤ packed') :
    PackedAs blobHash packed' entry hash := by
  obtain ⟨blob, hmem, hhash⟩ := hpacked
  exact ⟨blob, hle hmem, hhash⟩

/-- The contract of a call. A call without an entry does nothing. -/
def callContract : Option Executor.CacheEntry → Contract CompositeOp CompositeOp.Response Packed
  | none => ⟨fun _ _ => False, fun _ _ _ => True, fun _ h => h⟩
  | some entry => {
      requires := Allowed blobHash entry
      ensures := Promised blobHash entry
      requires_mono := by
        intro packed packed' op hle hallowed
        cases op with
        | putLocal client key fingerprint artifactHash now fault =>
          exact fun hash hsome => (hallowed hash hsome).mono hle
        | putObject client hash bytes fault =>
          obtain ⟨hhash, other, hmem⟩ := hallowed
          exact ⟨hhash, other, hle hmem⟩
        | putArtifact other data => exact hle hallowed
        | _ => exact hallowed }

variable {entry : Executor.CacheEntry} {packed : Packed}

/-- Asking the caches. -/
theorem matchesFingerprint_meets (cache : CompositeCache) (key expected : String) (io : CompositeIo) :
    (cache.matchesFingerprint key expected io).Meets (callContract blobHash (some entry))
      (fun _ _ => True) packed := by
  refine (Program.meets_perform trivial).bind fun packed₁ hit _ _ => ?_
  split
  · trivial
  split
  · trivial
  refine (Program.meets_perform trivial).bind fun packed₂ remoteFingerprint _ _ => ?_
  split
  · refine (Program.meets_perform fun hash hsome => by cases hsome).bind fun packed₃ _ _ _ => ?_
    exact (Program.meets_perform trivial).bind fun _ _ _ _ => trivial
  · trivial

/-- Putting what is stored under a hash on the remote cache, when it was packed for the fingerprint. -/
theorem putStored_meets (cache : CompositeCache) {key fingerprint : String} {artifactHash : Option String}
    (io : CompositeIo)
    (hpacked : ∀ hash, artifactHash = some hash → PackedAs blobHash packed ⟨key, fingerprint⟩ hash) :
    (cache.putStored key fingerprint artifactHash io).Meets (callContract blobHash (some entry))
      (fun _ _ => True) packed := by
  cases artifactHash with
  | none => trivial
  | some hash =>
    refine (Program.meets_perform trivial).bind fun packed' found hle hfound => ?_
    cases found with
    | none => trivial
    | some data =>
      obtain ⟨blob, hmem, hhash⟩ := (hpacked hash rfl).mono hle
      have hsame : blob = data := hfound data rfl _ hmem hhash
      exact (Program.meets_perform (hsame ▸ hmem)).weaken fun _ _ _ _ => trivial

/-- Storing a fingerprint, with the hash of what was packed for it. -/
theorem putWithArtifact_meets (cache : CompositeCache) {key fingerprint : String}
    {artifactHash : Option String} (io : CompositeIo)
    (hpacked : ∀ hash, artifactHash = some hash → PackedAs blobHash packed ⟨key, fingerprint⟩ hash) :
    (cache.putWithArtifact key fingerprint artifactHash io).Meets (callContract blobHash (some entry))
      (fun _ _ => True) packed := by
  refine (Program.meets_perform hpacked).bind fun packed₁ _ hle₁ _ => ?_
  split
  · trivial
  refine (Program.meets_perform trivial).bind fun packed₂ _ hle₂ _ => ?_
  exact putStored_meets blobHash cache io fun hash hsome => (hpacked hash hsome).mono (hle₁.trans hle₂)

/-- What the local cache has for the key of an entry was packed for the entry. -/
theorem getLocalArtifact_meets (cache : CompositeCache) (io : CompositeIo) :
    (cache.getLocalArtifact entry.key io).Meets (callContract blobHash (some entry))
      (fun packed' found => ∀ blob, found = some blob → (entry, blob) ∈ packed') packed := by
  refine (Program.meets_perform rfl).bind fun packed₁ hash? _ hhash? => ?_
  cases hash? with
  | none => exact fun blob hsome => by cases hsome
  | some hash =>
    refine (Program.meets_perform trivial).weaken fun packed₂ found hle hfound data hsome => ?_
    obtain ⟨blob, hmem, hhash⟩ := (hhash? hash rfl).mono hle
    have hsame : blob = data := hfound data hsome _ hmem hhash
    exact hsame ▸ hmem

/-- With a remote cache, an artifact for the key of an entry is found, and it was packed for the
entry. -/
theorem getArtifact_meets {cache : CompositeCache} (hremote : cache.remote = true) (io : CompositeIo) :
    (cache.getArtifact blobHash entry.key io).Meets (callContract blobHash (some entry))
      (fun packed' found => ∃ blob, found = some blob ∧ (entry, blob) ∈ packed') packed := by
  refine (getLocalArtifact_meets blobHash cache io).bind fun packed₁ found _ hfound => ?_
  cases found with
  | some blob => exact ⟨blob, rfl, hfound blob rfl⟩
  | none =>
    dsimp only
    rw [hremote, if_neg nofun]
    refine (Program.meets_perform trivial).bind fun packed₂ remote? _ hremote? => ?_
    obtain ⟨blob, rfl, hmem⟩ := hremote?
    have hallowed : Allowed blobHash entry packed₂
      (.putObject cache.client (blobHash blob) blob io.putObjectFault) := ⟨rfl, entry, hmem⟩
    refine (Program.meets_perform hallowed).bind fun packed₃ _ hle _ => ?_
    exact ⟨blob, rfl, hle hmem⟩

/-- A task with artifacts gets a blob that was packed for its entry. -/
theorem restoreArtifacts_meets {Env : Type} {executor : CompositeCachingExecutor Env}
    (hremote : executor.cache.remote = true) {task : Task} (hentry : task.cache = some entry)
    (io : CompositeIo) :
    (executor.restoreArtifacts blobHash task io).Meets (callContract blobHash (some entry))
      (fun packed' unpacked => task.artifacts ≠ [] →
        ∃ blob, unpacked = some blob ∧ (entry, blob) ∈ packed') packed := by
  rw [CompositeCachingExecutor.restoreArtifacts, hentry]
  cases task.artifacts with
  | nil => exact fun h => absurd rfl h
  | cons artifact artifacts =>
    refine (getArtifact_meets blobHash hremote io).bind fun packed₁ found _ hfound => ?_
    obtain ⟨blob, rfl, hmem⟩ := hfound
    refine (Program.meets_perform trivial).bind fun packed₂ result hle hresult => ?_
    cases hresult
    exact fun _ => ⟨blob, rfl, hle hmem⟩

/-- The hash of what is stored is that of what was packed for the entry. -/
theorem storeArtifacts_meets {Env : Type} (executor : CompositeCachingExecutor Env) {task : Task}
    (hentry : task.cache = some entry) (io : CompositeIo) :
    (executor.storeArtifacts blobHash task io).Meets (callContract blobHash (some entry))
      (fun packed' artifactHash => ∀ hash, artifactHash = some hash →
        PackedAs blobHash packed' entry hash) packed := by
  rw [CompositeCachingExecutor.storeArtifacts, hentry]
  cases task.artifacts with
  | nil => exact fun hash hsome => by cases hsome
  | cons artifact artifacts =>
    refine (Program.meets_perform trivial).bind fun packed₁ result _ hresult => ?_
    cases result with
    | error e => exact fun hash hsome => by cases hsome
    | ok blob =>
      have hmem := hresult blob rfl
      have hallowed : Allowed blobHash entry packed₁
        (.putObject executor.cache.client (blobHash blob) blob io.putObjectFault) := ⟨rfl, entry, hmem⟩
      refine (Program.meets_perform hallowed).bind fun packed₂ _ hle₁ _ => ?_
      have hhash : ∀ packed', packed₁ ≤ packed' → ∀ hash, some (blobHash blob) = some hash →
          PackedAs blobHash packed' entry hash := by
        intro packed' hle hash hsome
        exact ⟨blob, hle hmem, Option.some.inj hsome⟩
      dsimp only
      split
      · have hput : Allowed blobHash entry packed₂ (.putArtifact entry blob) := hle₁ hmem
        exact (Program.meets_perform hput).bind fun packed₃ _ hle₂ _ => hhash packed₃ (hle₁.trans hle₂)
      · exact hhash packed₂ hle₁

/-- Storing what a task produced. -/
theorem storeOutcome_meets {Env : Type} (executor : CompositeCachingExecutor Env) {task : Task}
    (hentry : task.cache = some entry) (outcome : TaskOutcome) (io : CompositeIo) :
    (executor.storeOutcome blobHash task outcome io).Meets (callContract blobHash (some entry))
      (fun _ _ => True) packed := by
  rw [CompositeCachingExecutor.storeOutcome, hentry]
  cases outcome.status with
  | executed =>
    exact (storeArtifacts_meets blobHash executor hentry io).bind fun packed₁ artifactHash _ hstored =>
      putWithArtifact_meets blobHash executor.cache io hstored
  | cached => trivial
  | failed => trivial

/-- A call of an executor whose inner executor does not answer from a cache. -/
theorem execute_meets {Env : Type} {executor : CompositeCachingExecutor Env}
    (hremote : executor.cache.remote = true) {task : Task} {env : Env}
    (hinner : (executor.inner.execute task env).status? ≠ some .cached) (io : CompositeIo) :
    (executor.execute blobHash task env io).Meets (callContract blobHash task.cache)
      (fun packed' result => Restored task packed' result) packed := by
  cases hentry : task.cache with
  | none =>
    have hrestored : ∀ packed' result, Restored task packed' result := by
      intro packed' result other hother
      cases hentry.symm.trans hother
    have hask : executor.askCache task io = pure false := by
      rw [CompositeCachingExecutor.askCache, hentry]
    have hstore : ∀ outcome, executor.storeOutcome blobHash task outcome io = pure () := by
      intro outcome
      rw [CompositeCachingExecutor.storeOutcome, hentry]
      cases outcome.status <;> rfl
    rw [CompositeCachingExecutor.execute, hask]
    cases executor.inner.execute task env with
    | ok outcome =>
      dsimp only
      rw [hstore]
      exact hrestored _ _
    | err error => exact hrestored _ _
    | panic message => exact hrestored _ _
  | some entry =>
    have hask : (executor.askCache task io).Meets (callContract blobHash (some entry)) (fun _ _ => True)
        packed := by
      rw [CompositeCachingExecutor.askCache, hentry]
      exact matchesFingerprint_meets blobHash executor.cache _ _ io
    refine hask.bind fun packed₁ hit _ _ => ?_
    cases hit with
    | true =>
      refine (restoreArtifacts_meets blobHash hremote hentry io).bind fun packed₂ unpacked _ hunpacked => ?_
      intro other hother hartifacts _
      cases hentry.symm.trans hother
      exact hunpacked hartifacts
    | false =>
      rw [if_neg Bool.false_ne_true]
      cases hresult : executor.inner.execute task env with
      | ok outcome =>
        refine (storeOutcome_meets blobHash executor hentry outcome io).bind fun packed₂ _ _ _ => ?_
        exact fun _ _ _ hcached => absurd (hresult ▸ hcached) hinner
      | err error => exact fun _ _ _ hcached => by cases hcached
      | panic message => exact fun _ _ _ hcached => by cases hcached

end Contracts

/-! ## What the caches hold -/

/-- What was packed so far. -/
def CompositeState.known (s : CompositeState) : Packed := {one | one ∈ s.packed}

/-- A record names the hash of a blob that was packed for its fingerprint, an object has its hash and
was packed, and the remote cache has what was put there last. Different blobs have different hashes. -/
structure CachesBacked (codec : RecordCodec) (blobHash : Bytes → String) (s : CompositeState) : Prop where
  records : ∀ client key record hash, (s.clients client).cache.Holds codec key record →
    record.artifactHash = some hash → PackedAs blobHash s.known ⟨key, record.fingerprint⟩ hash
  objects : ∀ client hash data, (s.clients client).objects.lookup (.object hash) = some data →
    blobHash data = hash ∧ ∃ other, (other, data) ∈ s.known
  artifacts : ∀ key entry, s.lastUpload key = some entry →
    ∃ data, s.remote.artifacts.lookup key = some data ∧ (entry, data) ∈ s.known
  distinct : ∀ one ∈ s.packed, ∀ other ∈ s.packed, blobHash one.2 = blobHash other.2 → one.2 = other.2

namespace CachesBacked

variable {codec : RecordCodec} {blobHash : Bytes → String} {s : CompositeState}

/-- At the start there is nothing. -/
theorem start : CachesBacked codec blobHash .start :=
  ⟨fun client key record hash hheld => absurd hheld (LocalCache.not_holds_new client 0 key record),
    fun client hash data hlookup => (by cases hlookup), fun key entry hupload => (by cases hupload),
    fun one hmem => (by cases hmem)⟩

/-- Changing the cache of a client to one whose records and objects were there before or belong to what
was packed. -/
theorem update (hbacked : CachesBacked codec blobHash s) (client : ℕ) (c : ArtifactCache)
    (hrecords : ∀ key record hash, c.cache.Holds codec key record → record.artifactHash = some hash →
      (s.clients client).cache.Holds codec key record ∨
        PackedAs blobHash s.known ⟨key, record.fingerprint⟩ hash)
    (hobjects : ∀ hash data, c.objects.lookup (.object hash) = some data →
      (s.clients client).objects.lookup (.object hash) = some data ∨
        (blobHash data = hash ∧ ∃ other, (other, data) ∈ s.known)) :
    CachesBacked codec blobHash { s with clients := Function.update s.clients client c } := by
  refine ⟨fun client' key record hash hheld hhash => ?_, fun client' hash data hlookup => ?_,
    hbacked.artifacts, hbacked.distinct⟩
  · by_cases hclient : client' = client
    · subst hclient
      dsimp only at hheld
      rw [Function.update_self] at hheld
      rcases hrecords key record hash hheld hhash with hbefore | hpacked
      · exact hbacked.records client' key record hash hbefore hhash
      · exact hpacked
    · dsimp only at hheld
      rw [Function.update_of_ne hclient] at hheld
      exact hbacked.records client' key record hash hheld hhash
  · by_cases hclient : client' = client
    · subst hclient
      dsimp only at hlookup
      rw [Function.update_self] at hlookup
      rcases hobjects hash data hlookup with hbefore | hpacked
      · exact hbacked.objects client' hash data hbefore
      · exact hpacked
    · dsimp only at hlookup
      rw [Function.update_of_ne hclient] at hlookup
      exact hbacked.objects client' hash data hlookup

/-- Changing the records of a client to those that were there before, or that belong to what was
packed. -/
theorem setCache (hbacked : CachesBacked codec blobHash s) (client : ℕ) (cache : LocalCache)
    (hrecords : ∀ key record hash, cache.Holds codec key record → record.artifactHash = some hash →
      (s.clients client).cache.Holds codec key record ∨
        PackedAs blobHash s.known ⟨key, record.fingerprint⟩ hash) :
    CachesBacked codec blobHash (s.setCache client cache) :=
  hbacked.update client { s.clients client with cache := cache } hrecords fun _ _ hlookup => Or.inl hlookup

/-- Putting an artifact that was packed on the remote cache. -/
theorem putArtifact (hbacked : CachesBacked codec blobHash s) {entry : Executor.CacheEntry} {data : Bytes}
    (hpacked : (entry, data) ∈ s.known) :
    CachesBacked codec blobHash (s.perform codec (.putArtifact entry data)).2 := by
  refine ⟨hbacked.records, hbacked.objects, fun key other hupload => ?_, hbacked.distinct⟩
  change (List.find? _ (entry :: s.uploads)) = some other at hupload
  change ∃ data', (AList.insert entry.key data s.remote.artifacts).lookup key = some data' ∧ _
  by_cases hkey : entry.key = key
  · subst hkey
    simp only [List.find?_cons, decide_true, Option.some.injEq] at hupload
    subst hupload
    exact ⟨data, AList.lookup_insert _, hpacked⟩
  · simp only [List.find?_cons, hkey, decide_false] at hupload
    rw [AList.lookup_insert_ne (Ne.symm hkey)]
    exact hbacked.artifacts key other hupload

/-- Packing a blob whose hash no other one has. -/
theorem packArtifacts (hbacked : CachesBacked codec blobHash s) {entry : Executor.CacheEntry} {blob : Bytes}
    (hdistinct : ∀ other ∈ s.packed, blobHash other.2 = blobHash blob → other.2 = blob) :
    CachesBacked codec blobHash { s with packed := (entry, blob) :: s.packed } := by
  have hle : s.known ≤ CompositeState.known { s with packed := (entry, blob) :: s.packed } :=
    fun one hmem => List.mem_cons_of_mem _ hmem
  refine ⟨fun client key record hash hheld hhash => ?_, fun client hash data hlookup => ?_,
    fun key other hupload => ?_, fun one hone other hother heq => ?_⟩
  · exact (hbacked.records client key record hash hheld hhash).mono hle
  · obtain ⟨hhash, other, hmem⟩ := hbacked.objects client hash data hlookup
    exact ⟨hhash, other, hle hmem⟩
  · obtain ⟨data, hlookup, hmem⟩ := hbacked.artifacts key other hupload
    exact ⟨data, hlookup, hle hmem⟩
  · rcases List.mem_cons.mp hone with rfl | hone
    · rcases List.mem_cons.mp hother with rfl | hother
      · rfl
      · exact (hdistinct other hother heq.symm).symm
    · rcases List.mem_cons.mp hother with rfl | hother
      · exact hdistinct one hone heq
      · exact hbacked.distinct one hone other hother heq

/-- An operation that is allowed and meets the condition keeps what the caches hold, forgets nothing, and
has the response that is promised. -/
theorem perform (hbacked : CachesBacked codec blobHash s) {entry : Executor.CacheEntry} {op : CompositeOp}
    (hharmless : HarmlessOp codec blobHash entry s op) (hallowed : Allowed blobHash entry s.known op) :
    CachesBacked codec blobHash (s.perform codec op).2 ∧ s.known ≤ (s.perform codec op).2.known ∧
      Promised blobHash entry (s.perform codec op).2.known op (s.perform codec op).1 := by
  cases op with
  | matchesLocal client key fingerprint fault =>
    exact ⟨hbacked.setCache client _ fun _ _ _ hheld _ =>
      Or.inl (LocalCache.holds_of_matchesFingerprint hheld), le_refl _, trivial⟩
  | putLocal client key fingerprint artifactHash now fault =>
    refine ⟨hbacked.setCache client _ fun other record hash hheld hhash => ?_, le_refl _, trivial⟩
    rcases LocalCache.holds_of_putWithArtifact hheld with hbefore | ⟨rfl, rfl⟩
    · exact Or.inl hbefore
    · exact Or.inr (hallowed hash hhash)
  | artifactHash client key fault =>
    refine ⟨hbacked.setCache client _ fun _ _ _ hheld _ =>
      Or.inl (LocalCache.holds_of_artifactHash hheld), le_refl _, fun hash hsome => ?_⟩
    obtain ⟨record, hread, hheld, hhash⟩ := LocalCache.record_of_artifactHash hsome
    have hpacked := hbacked.records client key record hash hheld hhash
    rw [HarmlessOp, hread] at hharmless
    have hfingerprint := hharmless.resolve_left fun hnone => by rw [hnone] at hhash; cases hhash
    rw [hfingerprint, show key = entry.key from hallowed] at hpacked
    exact hpacked
  | getObject client hash fault =>
    refine ⟨hbacked, le_refl _, fun data hsome other hother hhash => ?_⟩
    obtain ⟨hdata, holder, hmem⟩ :=
      hbacked.objects client hash data (ArtifactCache.lookup_of_getObject hsome)
    exact hbacked.distinct other hother (holder, data) hmem (hhash.trans hdata.symm)
  | putObject client hash bytes fault =>
    refine ⟨hbacked.update client _ (fun key record hash' hheld _ => Or.inl ?_)
      fun hash' data hlookup => ?_, le_refl _, trivial⟩
    · obtain ⟨hmemory, hdisk⟩ := (s.clients client).putObject_cache hash bytes fault
      exact hheld.congr hmemory hdisk
    · rcases ArtifactCache.lookup_of_putObject hlookup with hbefore | ⟨rfl, rfl⟩
      · exact Or.inl hbefore
      · exact Or.inr hallowed
  | recordHit client =>
    exact ⟨hbacked.setCache client _ fun _ _ _ hheld _ => Or.inl (hheld.congr rfl rfl), le_refl _, trivial⟩
  | recordError client =>
    exact ⟨hbacked.setCache client _ fun _ _ _ hheld _ => Or.inl (hheld.congr rfl rfl), le_refl _, trivial⟩
  | getFingerprint key => exact ⟨hbacked, le_refl _, trivial⟩
  | putFingerprint key fingerprint =>
    exact ⟨⟨hbacked.records, hbacked.objects, hbacked.artifacts, hbacked.distinct⟩, le_refl _, trivial⟩
  | getArtifact key => exact ⟨hbacked, le_refl _, hbacked.artifacts key entry hharmless⟩
  | putArtifact other data => exact ⟨hbacked.putArtifact hallowed, le_refl _, trivial⟩
  | packArtifacts other packed =>
    cases packed with
    | error e => exact ⟨hbacked, le_refl _, fun blob hsome => by cases hsome⟩
    | ok blob =>
      refine ⟨hbacked.packArtifacts hharmless, fun one hmem => List.mem_cons_of_mem _ hmem,
        fun blob' hsome => ?_⟩
      cases hsome
      exact List.mem_cons_self
  | unpackArtifacts blob fault =>
    refine ⟨hbacked, le_refl _, ?_⟩
    rw [show fault = none from hharmless]
    rfl

end CachesBacked

/-! ## Runs -/

section Runs

variable {Env : Type} (codec : RecordCodec) (blobHash : Bytes → String) (calls : List (CompositeCall Env))

/-- The contract of a call in a list. -/
def contractOf (i : ℕ) : Contract CompositeOp CompositeOp.Response Packed :=
  callContract blobHash (entryOf calls i)

variable {codec blobHash calls}

/-- An operation that meets the condition keeps what the caches hold, and has the response that the call
relies on. -/
theorem performed_of_harmless {s : CompositeRun} {i : ℕ} (hharmless : Harmless codec blobHash calls s i) :
    Interleaved.Performed CompositeState.known (CachesBacked codec blobHash) (contractOf blobHash calls)
      (CompositeState.perform codec) s i := by
  intro op rest hnext hbacked hallowed
  rw [Harmless, hnext] at hharmless
  cases hentry : entryOf calls i with
  | none =>
    rw [contractOf, hentry] at hallowed
    exact hallowed.elim
  | some entry =>
    rw [hentry] at hharmless
    rw [contractOf, hentry] at hallowed ⊢
    exact hbacked.perform hharmless hallowed

variable (codec blobHash calls)

/-- If every step of a run meets the condition, then every task with artifacts that is answered from a
cache gets a blob that was packed for its key and fingerprint, for any calls of any executors with a
common remote cache, in any order of their steps. -/
theorem restored_of_harmless (hremote : ∀ call ∈ calls, call.executor.cache.remote = true)
    (hinner : ∀ call ∈ calls, (call.executor.inner.execute call.task call.env).status? ≠ some .cached)
    (events : List ℕ)
    (hharmless : (interleaving (CompositeState.perform codec)).Along (Harmless codec blobHash calls)
      (startCalls blobHash calls) events) {s : CompositeRun}
    (hrun : (interleaving (CompositeState.perform codec)).exec (startCalls blobHash calls) events = some s)
    {i : ℕ} {call : CompositeCall Env} (hcall : calls[i]? = some call) {result : CompositeResult}
    (hdone : s.programs[i]? = some (.done result)) : Restored call.task s.shared.known result := by
  have hrespected : Interleaved.Respected CompositeState.known (CachesBacked codec blobHash)
      (contractOf blobHash calls) (fun i packed result => ∀ call, calls[i]? = some call →
        Restored call.task packed result) s := by
    refine (interleaving (CompositeState.perform codec)).invariant_along _ (Harmless codec blobHash calls)
      (fun s i t hrespected hok hstep => hrespected.step (fun hle hpost call hcall => ?_)
        (performed_of_harmless hok) hstep) ⟨CachesBacked.start, fun i p hprogram => ?_⟩ hharmless hrun
    · rw [startCalls, List.getElem?_map] at hprogram
      obtain ⟨started, hstarted, rfl⟩ := Option.map_eq_some_iff.mp hprogram
      have hmem := List.mem_of_getElem? hstarted
      rw [contractOf, entryOf, hstarted, Option.bind_some]
      refine (execute_meets blobHash (hremote started hmem) (hinner started hmem) started.io).weaken
        fun packed' result _ hrestored call hcall => ?_
      cases hcall
      exact hrestored
    · exact (hpost call hcall).mono hle
  exact hrespected.meets i _ hdone call hcall

end Runs

/-! ## A sample -/

/-- The compressed archive of the file `out` with one character. -/
def archive (character : UInt8) : Bytes :=
  [40, 181, 47, 253, 0, 88, 253, 1, 0, 116, 2, 111, 117, 116, 0, 48, 49, 48, 48, 54, 52, 52, 0, 48, 48, 48,
    48, 49, 0, 0, 48, 48, 48, 54, 52, 50, 55, 0, 48, 0, 117, 115, 116, 97, 114, 32, 32, 0, character, 0, 8,
    0, 251, 129, 31, 211, 1, 197, 1, 72, 14, 68, 0, 131, 174, 160, 0, 134, 211, 19, 32, 2]

/-- A function with the right hashes of the archives with `1` and with `2`. -/
def archiveHash (blob : Bytes) : String :=
  if blob = archive 50 then "3785353dc4948a4b256f48ba512ed1d6612440a738c736f660b0237392228f25"
  else "71b835fb4fc3e9f713a90cca28b59b337a33838d45ef0c6a8983632c5d37a73d"

/-- An executor whose tasks are always executed. -/
def alwaysExecutes : TaskExecutor Unit := ⟨fun task _ => .ok (.executed task)⟩

/-- A call of the executor of a client for a task that produces the file `out`. -/
def produce (client : ℕ) (fingerprint : String) (character : UInt8) : CompositeCall Unit where
  executor := ⟨alwaysExecutes, ⟨client, true⟩⟩
  task := ⟨"app", "app", ⟨"make", [], [], false, none⟩, some ⟨"app", fingerprint⟩, ["out"]⟩
  env := ()
  io := ⟨0, none, none, none, none, none, .ok (archive character), none⟩

/-- The first client executes the task, and the second one restores it. Then the first executes it
again, after a change, and the second restores the old one. -/
def changedCalls : List (CompositeCall Unit) :=
  [produce 0 "fp-1" 49, produce 1 "fp-1" 49, produce 0 "fp-2" 50, produce 1 "fp-1" 49]

/-- All steps of one call after another. -/
def changedEvents : List ℕ :=
  List.replicate 9 0 ++ List.replicate 8 1 ++ List.replicate 9 2 ++ List.replicate 5 3

/-- The last call gets the artifacts of the changed task, although it asks for the old one. -/
theorem not_restored_changed :
    ∃ s result, (interleaving (CompositeState.perform (.ofTable sampleRecords))).exec
        (startCalls archiveHash changedCalls) changedEvents = some s ∧
      s.programs[3]? = some (.done result) ∧
      ¬ Restored (produce 1 "fp-1" 49).task s.shared.known result := by
  have hend : ((interleaving (CompositeState.perform (.ofTable sampleRecords))).exec
      (startCalls archiveHash changedCalls) changedEvents).map
        (fun s => (s.programs[3]?.bind Program.value?, s.shared.packed)) =
      some (some ⟨.ok (.cached (produce 1 "fp-1" 49).task), some (archive 50)⟩,
        [(⟨"app", "fp-2"⟩, archive 50), (⟨"app", "fp-1"⟩, archive 49)]) := by
    decide +kernel
  obtain ⟨s, hrun, hvalues⟩ := Option.map_eq_some_iff.mp hend
  obtain ⟨hvalue, hpacked⟩ := Prod.mk.inj hvalues
  obtain ⟨p, hprogram, hvalue⟩ := Option.bind_eq_some_iff.mp hvalue
  rw [Program.value?_eq_some_iff] at hvalue
  subst hvalue
  refine ⟨s, _, hrun, hprogram, fun hrestored => ?_⟩
  obtain ⟨blob, hunpacked, hmem⟩ := hrestored ⟨"app", "fp-1"⟩ rfl (List.cons_ne_nil _ _) rfl
  cases hunpacked
  change (_, _) ∈ s.shared.packed at hmem
  rw [hpacked] at hmem
  revert hmem
  decide +kernel

/-- The second client restores what the first one packed. -/
theorem restored_of_harmless_unchanged :
    ∃ s result, (interleaving (CompositeState.perform (.ofTable sampleRecords))).exec
        (startCalls archiveHash [produce 0 "fp-1" 49, produce 1 "fp-1" 49])
        (List.replicate 9 0 ++ List.replicate 8 1) = some s ∧
      s.programs[1]? = some (.done result) ∧
      Restored (produce 1 "fp-1" 49).task s.shared.known result := by
  have hend : ((interleaving (CompositeState.perform (.ofTable sampleRecords))).exec
      (startCalls archiveHash [produce 0 "fp-1" 49, produce 1 "fp-1" 49])
      (List.replicate 9 0 ++ List.replicate 8 1)).bind (fun s => s.programs[1]?.bind Program.value?) =
      some ⟨.ok (.cached (produce 1 "fp-1" 49).task), some (archive 49)⟩ := by
    decide +kernel
  obtain ⟨s, hrun, hvalue⟩ := Option.bind_eq_some_iff.mp hend
  obtain ⟨p, hprogram, hvalue⟩ := Option.bind_eq_some_iff.mp hvalue
  rw [Program.value?_eq_some_iff] at hvalue
  subst hvalue
  refine ⟨s, _, hrun, hprogram, ?_⟩
  exact restored_of_harmless (.ofTable sampleRecords) archiveHash
    [produce 0 "fp-1" 49, produce 1 "fp-1" 49] (by decide) (by decide)
    (List.replicate 9 0 ++ List.replicate 8 1) (by decide +kernel) hrun rfl hprogram

end Forge.Cache
