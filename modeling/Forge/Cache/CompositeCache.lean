import Forge.Cache.Objects
import Forge.Common.Interleaving
import Forge.Executor.Task
import Mathlib.Logic.Function.Basic

/-!
# Caches before a remote cache

Executors have local caches of their own and share a remote cache, which never fails. It has a
fingerprint and an artifact for each key, and they come in requests of their own. An executor
packs the artifacts of a task that was executed, and unpacks those of a task that a cache has. A
local cache, a request or the workspace is used in one step, and calls can go on in any order.
-/

namespace Forge.Cache

open Forge.Common
open Forge.Executor

/-- What a call does with the local cache of a client, with the remote cache and with the workspace.
The remote cache does not see the fingerprint for which an artifact is put. -/
inductive CompositeOp where
  | matchesLocal (client : ℕ) (key fingerprint : String) (fault : Option String)
  | putLocal (client : ℕ) (key fingerprint : String) (artifactHash : Option String) (now : UInt64)
      (fault : Option PutFault)
  | artifactHash (client : ℕ) (key : String) (fault : Option String)
  | getObject (client : ℕ) (hash : String) (fault : Option String)
  | putObject (client : ℕ) (hash : String) (bytes : Bytes) (fault : Option ObjectFault)
  | recordHit (client : ℕ)
  | recordError (client : ℕ)
  | getFingerprint (key : String)
  | putFingerprint (key fingerprint : String)
  | getArtifact (key : String)
  | putArtifact (entry : Executor.CacheEntry) (data : Bytes)
  | packArtifacts (entry : Executor.CacheEntry) (packed : Except String Bytes)
  | unpackArtifacts (blob : Bytes) (fault : Option String)

/-- What it gets. -/
abbrev CompositeOp.Response : CompositeOp → Type
  | .matchesLocal _ _ _ _ => Bool
  | .putLocal _ _ _ _ _ _ => Except CacheError Unit
  | .artifactHash _ _ _ => Option String
  | .getObject _ _ _ => Option Bytes
  | .putObject _ _ _ _ => Except CacheError Unit
  | .recordHit _ => Unit
  | .recordError _ => Unit
  | .getFingerprint _ => Option String
  | .putFingerprint _ _ => Unit
  | .getArtifact _ => Option Bytes
  | .putArtifact _ _ => Unit
  | .packArtifacts _ _ => Except String Bytes
  | .unpackArtifacts _ _ => Except String Unit

/-- Programs that use caches. -/
abbrev CompositeM := Program CompositeOp CompositeOp.Response

/-- What the file system, the clock and the workspace do during a call. -/
structure CompositeIo where
  now : UInt64
  matchesFault : Option String
  hashFault : Option String
  putFault : Option PutFault
  getObjectFault : Option String
  putObjectFault : Option ObjectFault
  packed : Except String Bytes
  unpackFault : Option String

/-- The local cache of a client, before the remote cache if there is one. -/
structure CompositeCache where
  client : ℕ
  remote : Bool

/-- An executor with caches in front of it. -/
structure CompositeCachingExecutor (Env : Type) where
  inner : TaskExecutor Env
  cache : CompositeCache

/-- How a call ended, and the blob that it unpacked. -/
structure CompositeResult where
  result : ExecResult
  unpacked : Option Bytes
  deriving DecidableEq, Repr

namespace CompositeCache

variable (cache : CompositeCache)

/-- Whether a cache has a fingerprint for a key. What the remote cache has is kept in the local one. -/
def matchesFingerprint (key expected : String) (io : CompositeIo) : CompositeM Bool := do
  if ← Program.perform (CompositeOp.matchesLocal cache.client key expected io.matchesFault) then
    return true
  else if cache.remote = false then return false
  else
    let remoteFingerprint ← Program.perform (CompositeOp.getFingerprint key)
    if remoteFingerprint = some expected then
      let _ ← Program.perform (CompositeOp.putLocal cache.client key expected none io.now io.putFault)
      Program.perform (CompositeOp.recordHit cache.client)
      return true
    else return false

/-- Put the artifact that is stored under a hash on the remote cache, if it is there. -/
def putStored (key fingerprint : String) (artifactHash : Option String) (io : CompositeIo) :
    CompositeM Unit :=
  match artifactHash with
  | none => return ()
  | some hash => do
    match ← Program.perform (CompositeOp.getObject cache.client hash io.getObjectFault) with
    | none => return ()
    | some blob => Program.perform (CompositeOp.putArtifact ⟨key, fingerprint⟩ blob)

/-- Store a fingerprint for a key in both caches, with the hash of an artifact, and the artifact in
the remote one. -/
def putWithArtifact (key fingerprint : String) (artifactHash : Option String) (io : CompositeIo) :
    CompositeM Unit := do
  let _ ← Program.perform
    (CompositeOp.putLocal cache.client key fingerprint artifactHash io.now io.putFault)
  if cache.remote = false then return ()
  else
    Program.perform (CompositeOp.putFingerprint key fingerprint)
    cache.putStored key fingerprint artifactHash io

/-- The artifact of a key from the local cache, by the hash in the record. -/
def getLocalArtifact (key : String) (io : CompositeIo) : CompositeM (Option Bytes) := do
  match ← Program.perform (CompositeOp.artifactHash cache.client key io.hashFault) with
  | none => return none
  | some hash => Program.perform (CompositeOp.getObject cache.client hash io.getObjectFault)

/-- The artifact of a key from the local cache, or else from the remote one. Then it is kept in the
local one. -/
def getArtifact (blobHash : Bytes → String) (key : String) (io : CompositeIo) :
    CompositeM (Option Bytes) := do
  match ← cache.getLocalArtifact key io with
  | some blob => return some blob
  | none =>
    if cache.remote = false then return none
    else
      match ← Program.perform (CompositeOp.getArtifact key) with
      | none => return none
      | some blob =>
        let _ ← Program.perform
          (CompositeOp.putObject cache.client (blobHash blob) blob io.putObjectFault)
        return some blob

end CompositeCache

namespace CompositeCachingExecutor

variable {Env : Type} (blobHash : Bytes → String) (executor : CompositeCachingExecutor Env)

/-- Unpack the artifacts of a task that a cache has. A failure is only counted. The result is the
blob that was unpacked. -/
def restoreArtifacts (task : Task) (io : CompositeIo) : CompositeM (Option Bytes) :=
  match task.artifacts, task.cache with
  | [], _ => return none
  | _ :: _, none => return none
  | _ :: _, some entry => do
    match ← executor.cache.getArtifact blobHash entry.key io with
    | none => return none
    | some blob =>
      match ← Program.perform (CompositeOp.unpackArtifacts blob io.unpackFault) with
      | .ok () => return some blob
      | .error _ =>
        Program.perform (CompositeOp.recordError executor.cache.client)
        return none

/-- Pack the artifacts of a task that was executed, and store them in both caches. The result is the
hash of the blob. -/
def storeArtifacts (task : Task) (io : CompositeIo) : CompositeM (Option String) :=
  match task.artifacts, task.cache with
  | [], _ => return none
  | _ :: _, none => return none
  | _ :: _, some entry => do
    match ← Program.perform (CompositeOp.packArtifacts entry io.packed) with
    | .error _ => return none
    | .ok blob =>
      let hash := blobHash blob
      let _ ← Program.perform (CompositeOp.putObject executor.cache.client hash blob io.putObjectFault)
      if executor.cache.remote then Program.perform (CompositeOp.putArtifact entry blob)
      return some hash

/-- Ask the caches about a task. -/
def askCache (task : Task) (io : CompositeIo) : CompositeM Bool :=
  match task.cache with
  | none => return false
  | some entry => executor.cache.matchesFingerprint entry.key entry.fingerprint io

/-- Store what a task that was executed produced. -/
def storeOutcome (task : Task) (outcome : TaskOutcome) (io : CompositeIo) : CompositeM Unit :=
  match outcome.status, task.cache with
  | .executed, some entry => do
    let artifactHash ← executor.storeArtifacts blobHash task io
    executor.cache.putWithArtifact entry.key entry.fingerprint artifactHash io
  | _, _ => return ()

/-- Execute a task, unless a cache has its fingerprint. -/
def execute (task : Task) (env : Env) (io : CompositeIo) : CompositeM CompositeResult := do
  if ← executor.askCache task io then
    let unpacked ← executor.restoreArtifacts blobHash task io
    return ⟨.ok (.cached task), unpacked⟩
  else
    match executor.inner.execute task env with
    | .ok outcome =>
      executor.storeOutcome blobHash task outcome io
      return ⟨.ok outcome, none⟩
    | failure => return ⟨failure, none⟩

end CompositeCachingExecutor

/-! ## What the operations do -/

/-- A remote cache. -/
structure InMemoryRemoteCache where
  store : AList fun _ : String => String
  artifacts : AList fun _ : String => Bytes

/-- The caches of all clients and the remote one, with what was packed so far and for what artifacts
were put on the remote one, the last first. -/
structure CompositeState where
  clients : ℕ → ArtifactCache
  remote : InMemoryRemoteCache
  packed : List (Executor.CacheEntry × Bytes)
  uploads : List Executor.CacheEntry

namespace CompositeState

/-- Nothing is cached. -/
def start : CompositeState := ⟨fun client => ⟨.new ∅ client 0, ∅⟩, ⟨∅, ∅⟩, [], []⟩

/-- Change the local cache of a client. -/
def setCache (s : CompositeState) (client : ℕ) (cache : LocalCache) : CompositeState :=
  { s with clients := Function.update s.clients client { s.clients client with cache := cache } }

/-- The last that put an artifact for a key on the remote cache. -/
def lastUpload (s : CompositeState) (key : String) : Option Executor.CacheEntry :=
  s.uploads.find? fun entry => entry.key = key

/-- What an operation gets, and what that does to the caches. -/
def perform (codec : RecordCodec) : (op : CompositeOp) → CompositeState → op.Response × CompositeState
  | .matchesLocal client key fingerprint fault, s =>
    let (hit, cache) := (s.clients client).cache.matchesFingerprint codec key fingerprint fault
    (hit, s.setCache client cache)
  | .putLocal client key fingerprint artifactHash now fault, s =>
    let (result, cache) :=
      (s.clients client).cache.putWithArtifact codec key fingerprint artifactHash now fault
    (result, s.setCache client cache)
  | .artifactHash client key fault, s =>
    let (hash, cache) := (s.clients client).cache.artifactHash codec key fault
    (hash, s.setCache client cache)
  | .getObject client hash fault, s => ((s.clients client).getObject hash fault, s)
  | .putObject client hash bytes fault, s =>
    let (result, cache) := (s.clients client).putObject hash bytes fault
    (result, { s with clients := Function.update s.clients client cache })
  | .recordHit client, s =>
    let cache := (s.clients client).cache
    ((), s.setCache client { cache with stats := { cache.stats with hits := cache.stats.hits + 1 } })
  | .recordError client, s => ((), s.setCache client (s.clients client).cache.recordError)
  | .getFingerprint key, s => (s.remote.store.lookup key, s)
  | .putFingerprint key fingerprint, s =>
    ((), { s with remote := ⟨AList.insert key fingerprint s.remote.store, s.remote.artifacts⟩ })
  | .getArtifact key, s => (s.remote.artifacts.lookup key, s)
  | .putArtifact entry data, s =>
    ((), { s with
      remote := ⟨s.remote.store, AList.insert entry.key data s.remote.artifacts⟩
      uploads := entry :: s.uploads })
  | .packArtifacts entry packed, s =>
    (packed, match packed with
      | .ok blob => { s with packed := (entry, blob) :: s.packed }
      | .error _ => s)
  | .unpackArtifacts _ fault, s =>
    (match fault with
      | some source => .error source
      | none => .ok (), s)

end CompositeState

/-- A call of one of the executors. -/
structure CompositeCall (Env : Type) where
  executor : CompositeCachingExecutor Env
  task : Task
  env : Env
  io : CompositeIo

/-- The state of several calls and the caches. -/
abbrev CompositeRun := Interleaved CompositeOp CompositeOp.Response CompositeResult CompositeState

/-- Calls that have not done anything. -/
def startCalls {Env : Type} (blobHash : Bytes → String) (calls : List (CompositeCall Env)) : CompositeRun :=
  ⟨.start, calls.map fun call => call.executor.execute blobHash call.task call.env call.io⟩

end Forge.Cache
