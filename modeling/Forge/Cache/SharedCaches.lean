import Forge.Cache.LocalCache
import Forge.Common.Machine
import Mathlib.Logic.Function.Basic

/-!
# Caches that share a directory

Threads store, look up and prune on several caches that were opened on the same directory.
Every access to a map, to the directory or to the counter of temporary files is one step, and
the steps of different threads can happen in any order. Caches and threads are numbered;
`process` tells in which process a cache lives.
-/

namespace Forge.Cache

open Forge.Common

/-- How far a store has come. The directory exists from the start on. -/
inductive PutStage where
  | started
  | inserted
  | written (seq : ℕ)
  deriving DecidableEq, Repr

/-- How far a lookup has come. -/
inductive ReadStage where
  | started
  | absent
  | present
  | missed
  | found (record : FingerprintRecord)
  deriving DecidableEq, Repr

/-- A call in progress on one of the caches. -/
inductive Flight where
  | put (cache : ℕ) (key : String) (record : FingerprintRecord) (stage : PutStage)
  | read (cache : ℕ) (key : String) (stage : ReadStage)
  | prune (cache : ℕ)
  deriving DecidableEq, Repr

/-- Whether a call is a store. -/
def Flight.isPut : Flight → Bool
  | .put _ _ _ _ => true
  | .read _ _ _ => false
  | .prune _ => false

/-- The directory, the maps of the caches, the counters of the processes and the calls in
progress, by thread. -/
structure SharedCaches where
  disk : Directory
  memory : ℕ → MemoryCache
  tmpCounter : ℕ → ℕ
  flights : AList fun _ : ℕ => Flight

/-- What a thread does next. -/
inductive CacheEvent where
  | beginPut (thread cache : ℕ) (key fingerprint : String) (artifactHash : Option String) (now : UInt64)
  | insertMemory (thread : ℕ)
  | writeTmp (thread : ℕ)
  | renameTmp (thread : ℕ)
  | failPut (thread : ℕ) (left : Option Bytes)
  | beginRead (thread cache : ℕ) (key : String)
  | checkExists (thread : ℕ)
  | removeMemory (thread : ℕ)
  | lookMemory (thread : ℕ)
  | readFile (thread : ℕ)
  | failRead (thread : ℕ)
  | insertRead (thread : ℕ)
  | beginPrune (thread cache : ℕ)
  | removeFile (thread : ℕ) (path : RecordPath)
  | clearMemory (thread : ℕ)

namespace SharedCaches

/-- Start a call on a thread that has none. -/
def start (s : SharedCaches) (thread : ℕ) (flight : Flight) : Option SharedCaches :=
  match s.flights.lookup thread with
  | none => some { s with flights := s.flights.insert thread flight }
  | some _ => none

/-- A thread goes on with its call. -/
def goOn (s : SharedCaches) (thread : ℕ) (flight : Flight) : SharedCaches :=
  { s with flights := s.flights.insert thread flight }

/-- A thread returns from its call. -/
def finish (s : SharedCaches) (thread : ℕ) : SharedCaches :=
  { s with flights := s.flights.erase thread }

/-- Change the map of a cache. -/
def setMemory (s : SharedCaches) (cache : ℕ) (memory : MemoryCache) : SharedCaches :=
  { s with memory := Function.update s.memory cache memory }

/-- Change the directory. -/
def setDisk (s : SharedCaches) (disk : Directory) : SharedCaches := { s with disk := disk }

/-- Take a number for a temporary file. -/
def takeSeq (s : SharedCaches) (process : ℕ) : SharedCaches :=
  { s with tmpCounter := Function.update s.tmpCounter process (s.tmpCounter process + 1) }

section Steps

variable (codec : RecordCodec) (process : ℕ → ℕ)

/-- The temporary file a store writes when it takes the next number. -/
def nextTmp (s : SharedCaches) (cache : ℕ) (key : String) : RecordPath :=
  uniqueTmpPath key (process cache) (s.tmpCounter (process cache))

/-- The steps of a store. A rename can find its temporary file removed, and every step can fail
for reasons of the file system. -/
def stepPut (s : SharedCaches) (thread cache : ℕ) (key : String) (record : FingerprintRecord) :
    PutStage → CacheEvent → Option SharedCaches
  | .started, .insertMemory _ =>
    some ((s.setMemory cache ((s.memory cache).insert key record)).goOn thread
      (.put cache key record .inserted))
  | .inserted, .writeTmp _ =>
    some (((s.setDisk (s.disk.insert (s.nextTmp process cache key) (codec.toVec record))).takeSeq
      (process cache)).goOn thread (.put cache key record (.written (s.tmpCounter (process cache)))))
  | .written seq, .renameTmp _ =>
    match Files.rename s.disk (uniqueTmpPath key (process cache) seq) (fingerprintPath key) with
    | some disk => some ((s.setDisk disk).finish thread)
    | none => some (s.finish thread)
  | .started, .failPut _ _ => some (s.finish thread)
  | .inserted, .failPut _ left =>
    some (((s.setDisk (Files.leave s.disk (s.nextTmp process cache key) left)).takeSeq
      (process cache)).finish thread)
  | .written seq, .failPut _ _ =>
    some ((s.setDisk (s.disk.erase (uniqueTmpPath key (process cache) seq))).finish thread)
  | _, _ => none

/-- The steps of a lookup. -/
def stepRead (s : SharedCaches) (thread cache : ℕ) (key : String) :
    ReadStage → CacheEvent → Option SharedCaches
  | .started, .checkExists _ =>
    match s.disk.lookup (fingerprintPath key) with
    | some _ => some (s.goOn thread (.read cache key .present))
    | none => some (s.goOn thread (.read cache key .absent))
  | .absent, .removeMemory _ =>
    some ((s.setMemory cache ((s.memory cache).erase key)).finish thread)
  | .present, .lookMemory _ =>
    match (s.memory cache).lookup key with
    | some _ => some (s.finish thread)
    | none => some (s.goOn thread (.read cache key .missed))
  | .missed, .readFile _ =>
    match s.disk.lookup (fingerprintPath key) with
    | none => some (s.goOn thread (.read cache key .absent))
    | some bytes =>
      match codec.fromSlice bytes with
      | some record => some (s.goOn thread (.read cache key (.found record)))
      | none => some (s.finish thread)
  | .missed, .failRead _ => some (s.finish thread)
  | .found record, .insertRead _ =>
    some ((s.setMemory cache ((s.memory cache).insert key record)).finish thread)
  | _, _ => none

/-- The steps of a pruning: it removes files, which ones depends on their ages and sizes, and
clears the map of its cache at the end. -/
def stepPrune (s : SharedCaches) (thread cache : ℕ) : CacheEvent → Option SharedCaches
  | .removeFile _ path => some (s.setDisk (s.disk.erase path))
  | .clearMemory _ => some ((s.setMemory cache ∅).finish thread)
  | _ => none

/-- The next step of the call of a thread. -/
def stepFlight (s : SharedCaches) (thread : ℕ) (event : CacheEvent) : Option SharedCaches :=
  match s.flights.lookup thread with
  | some (.put cache key record stage) => s.stepPut codec process thread cache key record stage event
  | some (.read cache key stage) => s.stepRead codec thread cache key stage event
  | some (.prune cache) => s.stepPrune thread cache event
  | none => none

end Steps

end SharedCaches

/-- The thread that makes a step. -/
def CacheEvent.thread : CacheEvent → ℕ
  | .beginPut thread _ _ _ _ _ | .insertMemory thread | .writeTmp thread | .renameTmp thread
  | .failPut thread _ | .beginRead thread _ _ | .checkExists thread | .removeMemory thread
  | .lookMemory thread | .readFile thread | .failRead thread | .insertRead thread
  | .beginPrune thread _ | .removeFile thread _ | .clearMemory thread => thread

namespace SharedCaches

/-- The caches as a machine. -/
def machine (codec : RecordCodec) (process : ℕ → ℕ) : Machine SharedCaches CacheEvent where
  step s
    | .beginPut thread cache key fingerprint artifactHash now =>
      s.start thread (.put cache key ⟨fingerprint, now, artifactHash, some key⟩ .started)
    | .beginRead thread cache key => s.start thread (.read cache key .started)
    | .beginPrune thread cache => s.start thread (.prune cache)
    | event => s.stepFlight codec process event.thread event

/-- Caches that were just opened on a directory. -/
def opened (disk : Directory) : SharedCaches := ⟨disk, fun _ => ∅, fun _ => 0, ∅⟩

/-- One of the caches, seen on its own. -/
def view (s : SharedCaches) (process : ℕ → ℕ) (cache : ℕ) : LocalCache :=
  ⟨s.disk, s.memory cache, ⟨0, 0, 0⟩, process cache, s.tmpCounter (process cache)⟩

/-- The fingerprint that the file of a key says. -/
def fileFingerprint (codec : RecordCodec) (s : SharedCaches) (key : String) : Option String :=
  ((s.disk.lookup (fingerprintPath key)).bind codec.fromSlice).map FingerprintRecord.fingerprint

/-- No store is in progress. -/
def NoPutInFlight (s : SharedCaches) : Prop := ∀ entry ∈ s.flights.entries, entry.2.isPut = false

/-- Every cache answers what the files say. -/
def Transparent (codec : RecordCodec) (process : ℕ → ℕ) (s : SharedCaches) : Prop :=
  ∀ cache key, ((s.view process cache).get codec key none).1 = s.fileFingerprint codec key ∧
    ∀ fingerprint, ((s.view process cache).matchesFingerprint codec key fingerprint none).1 = true ↔
      s.fileFingerprint codec key = some fingerprint

end SharedCaches

end Forge.Cache
