import Forge.Cache.Objects
import Forge.Cache.Prune
import Forge.Common.Histories
import Forge.Common.Machine
import Mathlib.Logic.Function.Basic

/-!
# Pruning while an object and its record are stored

A writer stores an object and then a record that refers to it, each through a temporary file.
Pruning goes on at the same time, with what it has read before. The record stays linked to
the object as long as pruning does not remove the object, or the temporary file it comes
from, at the wrong time.
-/

namespace Forge.Cache

open Forge.Common

/-- The files with the times they were modified. -/
structure CacheDisk where
  files : Files CachePath
  modified : CachePath → ℤ

namespace CacheDisk

/-- The files of a directory. -/
def listing (disk : CacheDisk) (dir : CacheDir) : List CachePath := disk.files.keys.filter (·.dir = dir)

/-- Write a file. -/
def write (disk : CacheDisk) (path : CachePath) (bytes : Bytes) (now : ℤ) : CacheDisk :=
  ⟨AList.insert path bytes disk.files, Function.update disk.modified path now⟩

/-- Rename a file, if it is there. -/
def rename (disk : CacheDisk) (src dst : CachePath) : Bool × CacheDisk :=
  match Files.rename disk.files src dst with
  | some files => (true, ⟨files, Function.update disk.modified dst (disk.modified src)⟩)
  | none => (false, disk)

/-- What an operation of pruning does. A listing gives the files in any order. -/
def perform (disk : CacheDisk) (entries : List CachePath) : (op : PruneOp) → Option (op.Response × CacheDisk)
  | .list dir => if entries.Perm (disk.listing dir) then some (entries, disk) else none
  | .read path => some (disk.files.lookup path, disk)
  | .stat path =>
    some ((disk.files.lookup path).map fun bytes => ⟨bytes.length, disk.modified path⟩, disk)
  | .remove path => some ((disk.files.lookup path).isSome, { disk with files := disk.files.erase path })

/-- The contents of an object. -/
def getObject (disk : CacheDisk) (hash : String) : Option Bytes :=
  if validObjectHash hash then disk.files.lookup (objectPath hash) else none

end CacheDisk

/-- A writer: what it stores, its process, and the numbers of its temporary files. -/
structure Writer where
  key : String
  fingerprint : String
  hash : String
  bytes : Bytes
  storedAt : UInt64
  process : ℕ
  objectSeq : ℕ
  recordSeq : ℕ

/-- How far a writer has come, and whether its files could be renamed. -/
inductive WriterStage where
  | started
  | objectWritten
  | objectPut (renamed : Bool)
  | recordWritten (renamed : Bool)
  | finished (objectRenamed recordRenamed : Bool)
  deriving DecidableEq, Repr

/-- Whether a writer has finished. -/
def WriterStage.isFinished : WriterStage → Bool
  | .finished _ _ => true
  | _ => false

namespace Writer

/-- The file of the object. -/
def objectFile (w : Writer) : CachePath := objectPath w.hash

/-- The temporary file of the object. -/
def objectTmp (w : Writer) : CachePath := w.objectFile.tmp w.process w.objectSeq

/-- The file of the record. -/
def recordFile (w : Writer) : CachePath := recordPath w.key

/-- The temporary file of the record. -/
def recordTmp (w : Writer) : CachePath := w.recordFile.tmp w.process w.recordSeq

/-- The record. -/
def record (w : Writer) : FingerprintRecord := ⟨w.fingerprint, w.storedAt, some w.hash, some w.key⟩

/-- The next step of a writer. It goes on when a file cannot be renamed. -/
def step (codec : RecordCodec) (w : Writer) (disk : CacheDisk) (now : ℤ) :
    WriterStage → Option (WriterStage × CacheDisk)
  | .started => some (.objectWritten, disk.write w.objectTmp w.bytes now)
  | .objectWritten =>
    let (renamed, disk) := disk.rename w.objectTmp w.objectFile
    some (.objectPut renamed, disk)
  | .objectPut renamed => some (.recordWritten renamed, disk.write w.recordTmp (codec.toVec w.record) now)
  | .recordWritten objectRenamed =>
    let (renamed, disk) := disk.rename w.recordTmp w.recordFile
    some (.finished objectRenamed renamed, disk)
  | .finished _ _ => none

end Writer

/-- A pruning and a writer on the same files. -/
structure PruneRace where
  disk : CacheDisk
  pruning : PruneM PruneReport
  stage : WriterStage

/-- Pruning goes on, with the order of a listing if it makes one, or the writer, with the time. -/
inductive PruneEvent where
  | prune (entries : List CachePath)
  | write (now : ℤ)
  deriving DecidableEq

namespace PruneRace

variable (codec : RecordCodec) (w : Writer)

/-- All orders of the steps of a pruning and a writer. -/
def machine : Machine PruneRace PruneEvent where
  step
    | s, .prune entries =>
      match s.pruning with
      | .done _ => none
      | .next op rest =>
        match s.disk.perform entries op with
        | some (response, disk) => some { s with disk := disk, pruning := rest response }
        | none => none
    | s, .write now =>
      match w.step codec s.disk now s.stage with
      | some (stage, disk) => some { s with disk := disk, stage := stage }
      | none => none

/-- Before the first step. -/
def start (disk : CacheDisk) (now : ℕ) (olderThan maxSize : Option ℕ) : PruneRace :=
  ⟨disk, prune codec now olderThan maxSize, .started⟩

/-- The file that pruning is about to remove. -/
def nextRemoval (s : PruneRace) : Option CachePath :=
  match s.pruning with
  | .next (.remove path) _ => some path
  | _ => none

/-- The object may be removed before the writer has put it there, if it can still do that, and when
the record is gone after the writer has finished. The temporary file of the object may be removed
when the object is there anyway. -/
def Harmless (s : PruneRace) (path : CachePath) : Prop :=
  (path = w.objectFile →
    s.stage = .started ∨
      (s.stage = .objectWritten ∧ (s.disk.files.lookup w.objectTmp).isSome) ∨
      (s.stage.isFinished ∧ s.disk.files.lookup w.recordFile = none)) ∧
  (path = w.objectTmp → s.stage = .objectWritten → (s.disk.files.lookup w.objectFile).isSome)

/-- The invariant: the object is there, or will be, unless the writer has finished and the record is
gone. -/
def Linked (s : PruneRace) : Prop :=
  match s.stage with
  | .started => True
  | .objectWritten =>
    (s.disk.files.lookup w.objectTmp).isSome ∨ (s.disk.files.lookup w.objectFile).isSome
  | .objectPut _ | .recordWritten _ => (s.disk.files.lookup w.objectFile).isSome
  | .finished _ _ =>
    (s.disk.files.lookup w.recordFile).isSome → (s.disk.files.lookup w.objectFile).isSome

end PruneRace

/-- A temporary file is another file. -/
theorem CachePath.tmp_ne (path : CachePath) (process seq : ℕ) : path.tmp process seq ≠ path := by
  intro heq
  have hname := congrArg (fun path => path.name.toList.length) heq
  simp only [CachePath.tmp, String.toList_append, List.length_append] at hname
  have hend : ".tmp".toList.length = 4 := rfl
  omega

/-- A file that is renamed to another name is there then, and one that is not renamed stays. -/
theorem CacheDisk.rename_lookup (disk : CacheDisk) (src dst : CachePath) :
    (((disk.rename src dst).2.files.lookup dst).isSome ↔
        (disk.files.lookup src).isSome ∨ (disk.files.lookup dst).isSome) ∧
      ∀ other, other ≠ src → other ≠ dst →
        (disk.rename src dst).2.files.lookup other = disk.files.lookup other := by
  rw [rename, Files.rename]
  cases disk.files.lookup src with
  | none =>
    rw [Option.map_none]
    exact ⟨by simp, fun _ _ _ => rfl⟩
  | some bytes =>
    rw [Option.map_some]
    exact ⟨by simp, fun other hsrc hdst => Files.lookup_insert_erase _ hsrc hdst _⟩

/-- The temporary file of the record is not the file of the object, and not the one of the record. -/
theorem Writer.recordTmp_ne (w : Writer) : w.recordTmp ≠ w.objectFile ∧ w.recordFile ≠ w.objectFile ∧
    w.recordFile ≠ w.objectTmp := by
  refine ⟨?_, ?_, ?_⟩ <;> intro heq <;> cases congrArg CachePath.dir heq

namespace PruneRace

variable (codec : RecordCodec) (w : Writer)

/-- Removing a file keeps the link when it is harmless. -/
theorem Linked.remove {w : Writer} {s : PruneRace} {path : CachePath} (hlinked : s.Linked w)
    (hharmless : s.Harmless w path) (pruning : PruneM PruneReport) :
    Linked w ⟨{ s.disk with files := s.disk.files.erase path }, pruning, s.stage⟩ := by
  obtain ⟨hobject, htmp⟩ := hharmless
  have herase : ∀ other, other ≠ path →
      (s.disk.files.erase path).lookup other = s.disk.files.lookup other :=
    fun other hother => AList.lookup_erase_ne hother
  rw [Linked] at hlinked ⊢
  dsimp only at hlinked ⊢
  cases hstage : s.stage with
  | started => trivial
  | objectWritten =>
    rw [hstage] at hlinked hobject htmp
    dsimp only at hlinked ⊢
    by_cases hfile : path = w.objectFile
    · left
      have hne : w.objectTmp ≠ path := hfile ▸ CachePath.tmp_ne w.objectFile _ _
      rw [herase _ hne]
      rcases hobject hfile with h | ⟨_, h⟩ | ⟨h, _⟩
      · cases h
      · exact h
      · cases h
    · rw [herase _ (Ne.symm hfile)]
      by_cases htmpFile : path = w.objectTmp
      · exact Or.inr (htmp htmpFile rfl)
      · rw [herase _ (Ne.symm htmpFile)]
        exact hlinked
  | objectPut renamed | recordWritten renamed =>
    rw [hstage] at hlinked hobject
    dsimp only at hlinked ⊢
    have hfile : w.objectFile ≠ path := by
      intro hfile
      rcases hobject hfile.symm with h | ⟨h, _⟩ | ⟨h, _⟩ <;> cases h
    rw [herase _ hfile]
    exact hlinked
  | finished objectRenamed recordRenamed =>
    rw [hstage] at hlinked hobject
    dsimp only at hlinked ⊢
    intro hrecord
    by_cases hfile : path = w.objectFile
    · obtain ⟨_, hne, _⟩ := w.recordTmp_ne
      rw [herase _ (hfile ▸ hne)] at hrecord
      rcases hobject hfile with h | ⟨h, _⟩ | ⟨_, hgone⟩
      · cases h
      · cases h
      · rw [hgone] at hrecord
        cases hrecord
    · rw [herase _ (Ne.symm hfile)]
      refine hlinked ?_
      by_cases hrecordFile : w.recordFile = path
      · rw [hrecordFile, AList.lookup_erase] at hrecord
        cases hrecord
      · rwa [herase _ hrecordFile] at hrecord

/-- Every step of the writer keeps the link. -/
theorem Linked.write {codec : RecordCodec} {w : Writer} {s : PruneRace} {now : ℤ} {stage : WriterStage}
    {disk : CacheDisk} (hlinked : s.Linked w) (hstep : w.step codec s.disk now s.stage = some (stage, disk)) :
    Linked w ⟨disk, s.pruning, stage⟩ := by
  obtain ⟨htmp, hfile, _⟩ := w.recordTmp_ne
  rw [Linked] at hlinked
  cases hstage : s.stage with
  | started =>
    rw [hstage] at hstep
    cases hstep
    left
    rw [CacheDisk.write, AList.lookup_insert]
    rfl
  | objectWritten =>
    rw [hstage] at hstep hlinked
    cases hstep
    exact (CacheDisk.rename_lookup _ _ _).1.mpr hlinked
  | objectPut renamed =>
    rw [hstage] at hstep hlinked
    cases hstep
    rw [Linked, CacheDisk.write]
    dsimp only
    rw [AList.lookup_insert_ne htmp.symm]
    exact hlinked
  | recordWritten renamed =>
    rw [hstage] at hstep hlinked
    cases hstep
    intro _
    have hkept := (s.disk.rename_lookup w.recordTmp w.recordFile).2
      w.objectFile htmp.symm hfile.symm
    exact (congrArg Option.isSome hkept).trans hlinked
  | finished objectRenamed recordRenamed =>
    rw [hstage] at hstep
    cases hstep

/-- Every step keeps the link, if it does not remove a file at the wrong time. -/
theorem Linked.step {codec : RecordCodec} {w : Writer} {s s' : PruneRace} {e : PruneEvent}
    (hlinked : s.Linked w) (hstep : (machine codec w).step s e = some s')
    (hharmless : ∀ entries path, e = .prune entries → s.nextRemoval = some path → s.Harmless w path) :
    s'.Linked w := by
  cases e with
  | prune entries =>
    simp only [machine] at hstep
    cases hpruning : s.pruning with
    | done report =>
      rw [hpruning] at hstep
      cases hstep
    | next op rest =>
      rw [hpruning] at hstep
      cases op with
      | list dir =>
        simp only [CacheDisk.perform] at hstep
        by_cases hperm : entries.Perm (s.disk.listing dir)
        · rw [if_pos hperm] at hstep
          cases hstep
          exact hlinked
        · rw [if_neg hperm] at hstep
          cases hstep
      | read path =>
        cases hstep
        exact hlinked
      | stat path =>
        cases hstep
        exact hlinked
      | remove path =>
        cases hstep
        exact hlinked.remove (hharmless entries path rfl (by rw [nextRemoval, hpruning])) _
  | write now =>
    simp only [machine] at hstep
    cases hwrite : w.step codec s.disk now s.stage with
    | none =>
      rw [hwrite] at hstep
      cases hstep
    | some next =>
      rw [hwrite] at hstep
      cases hstep
      exact hlinked.write hwrite

/-- A record of another key that refers to the object, and the record of the writer. -/
def raceRecords : JsonCodec.Table FingerprintRecord where
  known :=
    [(⟨"fp-0", 0, some "blob", some "old"⟩,
        "\x7b\"fingerprint\":\"fp-0\",\"stored_at\":0,\"artifact_hash\":\"blob\",\"key\":\"old\"\x7d"),
      (⟨"fp-1", 10000, some "blob", some "new"⟩,
        "\x7b\"fingerprint\":\"fp-1\",\"stored_at\":10000,\"artifact_hash\":\"blob\",\"key\":\"new\"\x7d")]
  texts_nodup := by decide +kernel
  nonzero := by decide +kernel

/-- The writer of the second record. -/
def raceWriter : Writer := ⟨"new", "fp-1", "blob", utf8Bytes "data", 10000, 7, 0, 1⟩

/-- The writer first, and then a pruning without limits. -/
def calmEvents : List PruneEvent :=
  [.write 10000000000000, .write 10000000000000, .write 10000000000000, .write 10000000000000,
    .prune [recordPath "new"], .prune [], .prune [objectPath "blob"], .prune [], .prune [],
    .prune [recordPath "new"], .prune []]

/-- The state after this run. -/
def calmEnd : PruneRace :=
  ((machine (.ofTable raceRecords) raceWriter).exec
    (start (.ofTable raceRecords) ⟨∅, fun _ => 0⟩ 10000 none none) calmEvents).get (by decide +kernel)

/-- The files before: the first record and the object. -/
def raceDisk : CacheDisk where
  files := AList.insert (recordPath "old")
    ((JsonCodec.ofTable raceRecords).toVec ⟨"fp-0", 0, some "blob", some "old"⟩)
    (AList.insert (objectPath "blob") (utf8Bytes "data") ∅)
  modified _ := 0

/-- Pruning counts the references and reads the records, the writer puts the object, pruning removes
the old record and with it the object, and the writer puts its record. -/
def raceEvents : List PruneEvent :=
  [.prune [recordPath "old"], .prune [], .prune [recordPath "old"], .prune [],
    .write 10000000000000, .write 10000000000000,
    .prune [], .prune [], .prune [],
    .write 10000000000000, .write 10000000000000,
    .prune [], .prune [recordPath "new"], .prune [recordPath "new"], .prune [], .prune [],
    .prune [recordPath "new"], .prune []]

end PruneRace

end Forge.Cache
