import Forge.Cache.LocalCache
import Forge.Common.Programs
import Mathlib.Data.List.Sort
import Mathlib.Algebra.GroupWithZero.Nat
import Mathlib.Algebra.Group.Nat.Defs

/-!
# Pruning the cache directory

Pruning lists the files of the records and of the objects, reads the records, and deletes
files in two phases: what is too old, and then the oldest until the rest is small enough.
Every access to a file is one operation, and what was read is used for as long as the phase
goes on. A file is named by its path below its directory. The hashes in records are taken as
names of objects. Times of files are in nanoseconds, all others in seconds.
-/

namespace Forge.Cache

open Forge.Common

/-- The two directories. -/
inductive CacheDir where
  | fingerprints
  | objects
  deriving DecidableEq, Repr

/-- A file of the cache. -/
structure CachePath where
  dir : CacheDir
  name : String
  deriving DecidableEq, Repr

/-- What is known about a file without reading it. -/
structure FileStat where
  len : ℕ
  modified : ℤ
  deriving DecidableEq, Repr

/-- What pruning does with files. -/
inductive PruneOp where
  | list (dir : CacheDir)
  | read (path : CachePath)
  | stat (path : CachePath)
  | remove (path : CachePath)
  deriving DecidableEq, Repr

/-- What it learns by that. -/
abbrev PruneOp.Response : PruneOp → Type
  | .list _ => List CachePath
  | .read _ => Option Bytes
  | .stat _ => Option FileStat
  | .remove _ => Bool

/-- Programs that prune. -/
abbrev PruneM := Program PruneOp PruneOp.Response

/-- List the files of a directory. -/
def walkFiles (dir : CacheDir) : PruneM (List CachePath) := Program.perform (PruneOp.list dir)

/-- Read a file. -/
def readFile (path : CachePath) : PruneM (Option Bytes) := Program.perform (PruneOp.read path)

/-- Ask for what is known about a file. -/
def fileMetadata (path : CachePath) : PruneM (Option FileStat) := Program.perform (PruneOp.stat path)

/-- Remove a file. -/
def removeFile (path : CachePath) : PruneM Bool := Program.perform (PruneOp.remove path)

/-- The last part of a name. -/
def fileName (name : String) : String := String.ofList (name.toList.reverse.takeWhile (· ≠ '/')).reverse

/-- What comes behind the last point of a file name, if something comes before it. -/
def extension (name : String) : Option String :=
  let reversed := (fileName name).toList.reverse
  let stem := (reversed.dropWhile (· ≠ '.')).tail
  if stem = [] then none else some (String.ofList (reversed.takeWhile (· ≠ '.')).reverse)

/-- A name that ends as those of temporary files do. -/
def isTmp (path : CachePath) : Bool := extension path.name = some "tmp"

/-- The file of an object. -/
def objectPath (hash : String) : CachePath := ⟨.objects, hash⟩

/-- The file of the record of a key. -/
def recordPath (key : String) : CachePath := ⟨.fingerprints, recordName key⟩

/-- A temporary file for another file. -/
def CachePath.tmp (path : CachePath) (process seq : ℕ) : CachePath :=
  { path with name := path.name ++ "." ++ toString process ++ "." ++ toString seq ++ ".tmp" }

/-- A record as it was found in its file. -/
structure CacheRecord where
  key : String
  fingerprint : String
  storedAt : UInt64
  path : CachePath
  size : ℕ
  artifactHash : Option String
  deriving DecidableEq, Repr

/-- What pruning removed. -/
structure PruneReport where
  removedRecords : ℕ
  removedObjects : ℕ
  freedBytes : ℕ
  deriving DecidableEq, Repr

/-- The key of a record that does not say it: the name of the file without its ending, as it is or
with its escapes undone. -/
def legacyKey (path : CachePath) : String :=
  let chars := path.name.toList
  let raw := String.ofList
    (if ".json".toList <:+ chars then chars.take (chars.length - ".json".toList.length) else chars)
  if '/' ∈ raw.toList then raw else (decodeKey raw).getD raw

/-- Sort by a key. -/
def sortByKey {α : Type} (key : α → ℤ) (l : List α) : List α := l.insertionSort fun a b => key a ≤ key b

/-- Read the record in a file. -/
def readRecordFile (codec : RecordCodec) (path : CachePath) : PruneM (Option CacheRecord) := do
  if extension path.name ≠ some "json" then return none
  let some bytes ← readFile path | return none
  let some record := codec.fromSlice bytes | return none
  return some ⟨record.key.getD (legacyKey path), record.fingerprint, record.storedAt, path, bytes.length,
    record.artifactHash⟩

/-- Read the records in a list of files, as far as they are records. -/
def readRecordFiles (codec : RecordCodec) : List CachePath → PruneM (List CacheRecord)
  | [] => return []
  | path :: paths => do
    let record ← readRecordFile codec path
    let others ← readRecordFiles codec paths
    return record.toList ++ others

/-- All records. -/
def records (codec : RecordCodec) : PruneM (List CacheRecord) := do
  let paths ← walkFiles .fingerprints
  readRecordFiles codec paths

/-- How many records refer to each object. -/
abbrev RefCounts := AList fun _ : String => ℕ

/-- Count the records that refer to each object. -/
def refCounts (codec : RecordCodec) : PruneM RefCounts := do
  let found ← records codec
  return found.foldl (fun counts record =>
    match record.artifactHash with
    | some hash => counts.insert hash ((counts.lookup hash).getD 0 + 1)
    | none => counts) ∅

/-- What pruning keeps in mind: the counts of references, what it removed, and the report. -/
structure PruneState where
  refCounts : RefCounts
  removed : Finset CachePath
  report : PruneReport

/-- Remove a record and, when no other refers to its object, the object. The result is the number of
bytes that this frees; the report counts only those of the record. -/
def dropRecordAndCascade (record : CacheRecord) (st : PruneState) : PruneM (ℕ × PruneState) := do
  if !(← removeFile record.path) then return (0, st)
  let report := { st.report with
    removedRecords := st.report.removedRecords + 1
    freedBytes := st.report.freedBytes + record.size }
  let some hash := record.artifactHash | return (record.size, { st with report := report })
  let count := (st.refCounts.lookup hash).getD 0
  let st := { st with
    report := report
    refCounts := if 0 < count then st.refCounts.insert hash (count - 1) else st.refCounts }
  if 1 < count then return (record.size, st)
  if objectPath hash ∈ st.removed then return (record.size, st)
  let st := { st with removed := insert (objectPath hash) st.removed }
  let some stat ← fileMetadata (objectPath hash) | return (record.size, st)
  if !(← removeFile (objectPath hash)) then return (record.size, st)
  return (record.size + stat.len,
    { st with report := { st.report with removedObjects := st.report.removedObjects + 1 } })

/-- How old a file is. -/
def fileAgeSecs (path : CachePath) (now : ℕ) : PruneM (Option ℕ) := do
  let some stat ← fileMetadata path | return none
  if stat.modified < 0 then return none
  return some (now - stat.modified.toNat / 10 ^ 9)

/-- Find out when files were modified, and put the oldest first. A file that is gone counts as very
old. -/
def statFiles : List CachePath → PruneM (List (CachePath × ℤ))
  | [] => return []
  | path :: paths => do
    let stat ← fileMetadata path
    let others ← statFiles paths
    return (path, (stat.map FileStat.modified).getD 0) :: others

/-- All files of the objects, the oldest first. -/
def oldestObjects : PruneM (List CachePath) := do
  let objects ← walkFiles .objects
  let dated ← statFiles objects
  return (sortByKey Prod.snd dated).map Prod.fst

/-- Remove the records that are too old. -/
def dropOldRecords (now ageSecs : ℕ) : List CacheRecord → PruneState → PruneM PruneState
  | [], st => return st
  | record :: rest, st => do
    if ageSecs ≤ now - record.storedAt.toNat then
      let (_, st) ← dropRecordAndCascade record st
      dropOldRecords now ageSecs rest st
    else dropOldRecords now ageSecs rest st

/-- Remove one old file that is temporary, or an object that no record refers to. -/
def sweepObject (now ageSecs : ℕ) (path : CachePath) (st : PruneState) : PruneM PruneState := do
  if path ∈ st.removed then return st
  let some age ← fileAgeSecs path now | return st
  if age < ageSecs then return st
  let orphan := !isTmp path && (st.refCounts.lookup (fileName path.name)).isNone
  if !(isTmp path || orphan) then return st
  let some stat ← fileMetadata path | return st
  if !(← removeFile path) then return st
  return { st with
    removed := insert path st.removed
    report := { st.report with
      removedObjects := if isTmp path then st.report.removedObjects else st.report.removedObjects + 1
      freedBytes := st.report.freedBytes + stat.len } }

/-- Remove old files that are temporary, and objects that no record refers to. -/
def sweepObjects (now ageSecs : ℕ) : List CachePath → PruneState → PruneM PruneState
  | [], st => return st
  | path :: paths, st => do
    let st ← sweepObject now ageSecs path st
    sweepObjects now ageSecs paths st

/-- Remove one old temporary file of a record. -/
def cleanupTmpFile (now ageSecs : ℕ) (path : CachePath) (st : PruneState) : PruneM PruneState := do
  if !isTmp path then return st
  if path ∈ st.removed then return st
  let some age ← fileAgeSecs path now | return st
  if age < ageSecs then return st
  let some stat ← fileMetadata path | return st
  if !(← removeFile path) then return st
  return { st with
    removed := insert path st.removed
    report := { st.report with freedBytes := st.report.freedBytes + stat.len } }

/-- Remove old temporary files of records. -/
def cleanupTmpFiles (now ageSecs : ℕ) : List CachePath → PruneState → PruneM PruneState
  | [], st => return st
  | path :: paths, st => do
    let st ← cleanupTmpFile now ageSecs path st
    cleanupTmpFiles now ageSecs paths st

/-- The first phase: remove what is too old. -/
def pruneByAge (codec : RecordCodec) (now ageSecs : ℕ) : PruneM PruneState := do
  let counts ← refCounts codec
  let found ← records codec
  let st ← dropOldRecords now ageSecs found ⟨counts, ∅, ⟨0, 0, 0⟩⟩
  let objects ← oldestObjects
  let st ← sweepObjects now ageSecs objects st
  let entries ← walkFiles .fingerprints
  cleanupTmpFiles now ageSecs (entries.filter fun path => '/' ∉ path.name.toList) st

/-- The sizes of the objects that were not removed. -/
def totalSize (st : PruneState) : List CachePath → PruneM ℕ
  | [] => return 0
  | path :: paths => do
    if path ∈ st.removed then totalSize st paths
    else
      let stat ← fileMetadata path
      let others ← totalSize st paths
      return (stat.map FileStat.len).getD 0 + others

/-- Remove records until the rest is small enough. -/
def dropRecordsTo (limit : ℕ) : List CacheRecord → ℕ → PruneState → PruneM (ℕ × PruneState)
  | [], total, st => return (total, st)
  | record :: rest, total, st => do
    if total ≤ limit then return (total, st)
    let (freed, st) ← dropRecordAndCascade record st
    dropRecordsTo limit rest (total - freed) st

/-- Remove objects until the rest is small enough, whether records refer to them or not. -/
def dropObjectsTo (limit : ℕ) : List CachePath → ℕ → PruneState → PruneM PruneState
  | [], _, st => return st
  | path :: paths, total, st => do
    if total ≤ limit then return st
    if path ∈ st.removed then dropObjectsTo limit paths total st
    else
      let some stat ← fileMetadata path | dropObjectsTo limit paths total st
      if !(← removeFile path) then dropObjectsTo limit paths total st
      else dropObjectsTo limit paths (total - stat.len) { st with
        removed := insert path st.removed
        report := { st.report with
          removedObjects := st.report.removedObjects + 1
          freedBytes := st.report.freedBytes + stat.len } }

/-- The second phase: remove the oldest records, and then the oldest objects, until the rest is
small enough. -/
def pruneBySize (codec : RecordCodec) (maxSize : Option ℕ) (st : PruneState) : PruneM PruneState := do
  let limit := maxSize.getD (2 ^ 64 - 1)
  let found ← records codec
  let objects ← oldestObjects
  let objectsSize ← totalSize st objects
  let counts ← refCounts codec
  let (total, st) ← dropRecordsTo limit (sortByKey (fun record => record.storedAt.toNat) found)
    ((found.map CacheRecord.size).sum + objectsSize) { st with refCounts := counts }
  dropObjectsTo limit objects total st

/-- Remove records that are older than an age, and then the oldest files until the rest is not larger
than a size. -/
def prune (codec : RecordCodec) (now : ℕ) (olderThan maxSize : Option ℕ) : PruneM PruneReport := do
  let st ← (match olderThan with
    | some ageSecs => pruneByAge codec now ageSecs
    | none => return ⟨∅, ∅, ⟨0, 0, 0⟩⟩)
  let st ← pruneBySize codec maxSize st
  return st.report

end Forge.Cache
