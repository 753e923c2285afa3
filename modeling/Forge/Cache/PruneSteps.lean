import Forge.Cache.HostDisk
import Forge.Common.Machine

/-!
# The steps of pruning

Pruning alone is a list of steps, each about one file that was listed: a record that is removed, maybe
with its object, or another file. Which steps there are is known when a phase starts. A step says all
that it can do to the files, so that what holds of pruning is shown for one step.
-/

namespace Forge.Cache

open Forge.Common

variable {host : Host}

/-- The files, what pruning keeps in mind, and how many bytes it thinks are left. -/
structure PruneRun (host : Host) where
  disk : HostDisk host
  st : PruneState
  total : ℕ

/-- A step of pruning. -/
inductive PruneStep where
  | drop (record : CacheRecord)
  | sweep (path : CachePath)
  | cleanup (path : CachePath)
  | recount
  | shrink (record : CacheRecord)
  | evict (path : CachePath)
  deriving DecidableEq, Repr

/-- What pruning keeps in mind after it removed a record, and so many objects with it. -/
def PruneState.dropped (st : PruneState) (record : CacheRecord) (objects : ℕ) : PruneState where
  refCounts := match record.artifactHash with
    | some hash =>
      if 0 < (st.refCounts.lookup hash).getD 0 then st.refCounts.insert hash ((st.refCounts.lookup hash).getD 0 - 1)
      else st.refCounts
    | none => st.refCounts
  removed := match record.artifactHash with
    | some hash => if (st.refCounts.lookup hash).getD 0 ≤ 1 then insert (objectPath hash) st.removed else st.removed
    | none => st.removed
  report := ⟨st.report.removedRecords + 1, st.report.removedObjects + objects, st.report.freedBytes + record.size⟩

/-- What pruning keeps in mind after it removed another file. -/
def PruneState.took (st : PruneState) (path : CachePath) (objects size : ℕ) : PruneState :=
  { st with
    removed := insert path st.removed
    report := ⟨st.report.removedRecords, st.report.removedObjects + objects, st.report.freedBytes + size⟩ }

/-- The file that is removed with a record. -/
def cascadeFile (disk : HostDisk host) (st : PruneState) (record : CacheRecord) : Option HostPath :=
  record.artifactHash.bind fun hash =>
    if (st.refCounts.lookup hash).getD 0 ≤ 1 ∧ objectPath hash ∉ st.removed then disk.fileAt (objectPath hash) else none

namespace PruneRun

section Steps

variable (order : WalkOrder host) (codec : RecordCodec) (now ageSecs limit : ℕ)

/-- Remove a record, and maybe its object. -/
def dropRecord (record : CacheRecord) (s : PruneRun host) : PruneRun host :=
  let outcome := (dropRecordAndCascade record s.st).run (HostDisk.perform order) s.disk
  ⟨outcome.2, outcome.1.2, s.total - outcome.1.1⟩

/-- Remove a file of the objects if it is old, and temporary or without records. -/
def sweepFile (path : CachePath) (s : PruneRun host) : PruneRun host :=
  let outcome := (sweepObject now ageSecs path s.st).run (HostDisk.perform order) s.disk
  ⟨outcome.2, outcome.1, s.total⟩

/-- Remove a temporary file of a record if it is old. -/
def cleanupFile (path : CachePath) (s : PruneRun host) : PruneRun host :=
  let outcome := (cleanupTmpFile now ageSecs path s.st).run (HostDisk.perform order) s.disk
  ⟨outcome.2, outcome.1, s.total⟩

/-- Count the references and the bytes. -/
def recount (s : PruneRun host) : PruneRun host :=
  { s with
    st := { s.st with refCounts := countRefs ((s.disk.view order).records codec) }
    total := (((s.disk.view order).records codec).map CacheRecord.size).sum +
      (((s.disk.view order).oldestObjects.filter fun path => decide (path ∉ s.st.removed)).map
        (s.disk.view order).sizeOf).sum }

/-- Remove a file of the objects. -/
def evictFile (path : CachePath) (s : PruneRun host) : PruneRun host :=
  if path ∈ s.st.removed then s
  else
    match s.disk.stat path with
    | none => s
    | some stat =>
      match s.disk.remove path with
      | (false, disk) => { s with disk := disk }
      | (true, disk) => ⟨disk, s.st.took path 1 stat.len, s.total - stat.len⟩

/-- Do a step. -/
def step (s : PruneRun host) : PruneStep → PruneRun host
  | .drop record => s.dropRecord order record
  | .sweep path => s.sweepFile order now ageSecs path
  | .cleanup path => s.cleanupFile order now ageSecs path
  | .recount => s.recount order codec
  | .shrink record => if s.total ≤ limit then s else s.dropRecord order record
  | .evict path => if s.total ≤ limit then s else s.evictFile path

end Steps

/-! ## What a step does -/

/-- Removing a record: it is gone already, or it is removed alone, or with a file. -/
inductive Dropped (s : PruneRun host) (record : CacheRecord) : PruneRun host → Prop
  | gone (hfile : s.disk.fileAt record.path = none) : Dropped s record s
  | alone {file : HostPath} (hfile : s.disk.fileAt record.path = some file)
      (hcascade : cascadeFile (s.disk.erase file) s.st record = none) :
      Dropped s record ⟨s.disk.erase file, s.st.dropped record 0, s.total - record.size⟩
  | cascaded {file object : HostPath} {bytes : Bytes} (hfile : s.disk.fileAt record.path = some file)
      (hcascade : cascadeFile (s.disk.erase file) s.st record = some object)
      (hbytes : (s.disk.erase file).files.lookup object = some bytes) :
      Dropped s record ⟨(s.disk.erase file).erase object, s.st.dropped record 1,
        s.total - (record.size + bytes.length)⟩

variable (order : WalkOrder host)

/-- Removing a file alone. -/
theorem run_removeFile (path : CachePath) (disk : HostDisk host) :
    (removeFile path).run (HostDisk.perform order) disk = disk.remove path := rfl

/-- Asking for a file alone. -/
theorem run_fileMetadata (path : CachePath) (disk : HostDisk host) :
    (fileMetadata path).run (HostDisk.perform order) disk = (disk.stat path, disk) := rfl

/-- The file that is removed with a record is there under the path of its object. -/
theorem cascadeFile_eq_some {disk : HostDisk host} {st : PruneState} {record : CacheRecord} {object : HostPath}
    (hcascade : cascadeFile disk st record = some object) :
    ∃ hash, record.artifactHash = some hash ∧ (st.refCounts.lookup hash).getD 0 ≤ 1 ∧
      objectPath hash ∉ st.removed ∧ disk.fileAt (objectPath hash) = some object := by
  rw [cascadeFile] at hcascade
  obtain ⟨hash, hhash, hobject⟩ := Option.bind_eq_some_iff.mp hcascade
  split at hobject
  · rename_i h
    exact ⟨hash, hhash, h.1, h.2, hobject⟩
  · cases hobject

/-- What removing a record does. -/
theorem run_dropRecordAndCascade (record : CacheRecord) (st : PruneState) {disk : HostDisk host} {file : HostPath}
    (hfile : disk.fileAt record.path = some file) :
    (dropRecordAndCascade record st).run (HostDisk.perform order) disk =
      match cascadeFile (disk.erase file) st record with
      | none => ((record.size, st.dropped record 0), disk.erase file)
      | some object => ((record.size + (((disk.erase file).files.lookup object).map List.length).getD 0,
          st.dropped record 1), (disk.erase file).erase object) := by
  have hstart : disk.remove record.path = (true, disk.erase file) := by
    rw [HostDisk.remove, hfile]
  rw [dropRecordAndCascade, Program.run_bind, run_removeFile, hstart]
  dsimp only
  rw [if_neg (by decide)]
  cases hhash : record.artifactHash with
  | none =>
    simp only [cascadeFile, PruneState.dropped, hhash]
    rfl
  | some hash =>
    dsimp only
    by_cases hcount : 1 < (st.refCounts.lookup hash).getD 0
    · have hcascade : cascadeFile (disk.erase file) st record = none := by
        rw [cascadeFile, hhash, Option.bind_some, if_neg fun h => Nat.not_le_of_lt hcount h.1]
      rw [if_pos hcount, hcascade]
      simp only [PruneState.dropped, hhash, if_neg (Nat.not_le_of_lt hcount)]
      rfl
    · rw [if_neg hcount]
      by_cases hremoved : objectPath hash ∈ st.removed
      · have hcascade : cascadeFile (disk.erase file) st record = none := by
          rw [cascadeFile, hhash, Option.bind_some, if_neg fun h => h.2 hremoved]
        rw [if_pos hremoved, hcascade]
        simp only [PruneState.dropped, hhash, if_pos (Nat.le_of_not_lt hcount), Finset.insert_eq_of_mem hremoved]
        rfl
      · have hcascade : cascadeFile (disk.erase file) st record = (disk.erase file).fileAt (objectPath hash) := by
          rw [cascadeFile, hhash, Option.bind_some, if_pos ⟨Nat.le_of_not_lt hcount, hremoved⟩]
        rw [if_neg hremoved, hcascade, Program.run_bind, run_fileMetadata]
        cases hobject : (disk.erase file).fileAt (objectPath hash) with
        | none =>
          rw [HostDisk.stat, hobject]
          simp only [PruneState.dropped, hhash, if_pos (Nat.le_of_not_lt hcount)]
          rfl
        | some object =>
          obtain ⟨bytes, hbytes⟩ := HostDisk.exists_bytes hobject
          rw [HostDisk.stat_of_fileAt hobject hbytes]
          dsimp only
          rw [Program.run_bind, run_removeFile, HostDisk.remove, hobject]
          dsimp only
          rw [if_neg (by decide)]
          simp only [PruneState.dropped, hhash, if_pos (Nat.le_of_not_lt hcount), hbytes, Option.map_some,
            Option.getD_some]
          rfl

/-- Removing a record does what is said. -/
theorem dropped_dropRecord (record : CacheRecord) (s : PruneRun host) :
    Dropped s record (s.dropRecord order record) := by
  rw [dropRecord]
  cases hfile : s.disk.fileAt record.path with
  | none =>
    have hrun : (dropRecordAndCascade record s.st).run (HostDisk.perform order) s.disk = ((0, s.st), s.disk) := by
      rw [dropRecordAndCascade, Program.run_bind, run_removeFile, HostDisk.remove, hfile]
      rfl
    rw [hrun]
    exact .gone hfile
  | some file =>
    rw [run_dropRecordAndCascade order record s.st hfile]
    cases hcascade : cascadeFile (s.disk.erase file) s.st record with
    | none => exact .alone hfile hcascade
    | some object =>
      obtain ⟨_, _, _, _, hobject⟩ := cascadeFile_eq_some hcascade
      obtain ⟨bytes, hbytes⟩ := HostDisk.exists_bytes hobject
      dsimp only
      rw [hbytes]
      exact .cascaded hfile hcascade hbytes

/-- A file that is there under a path that was not removed. -/
structure Takes (s : PruneRun host) (path : CachePath) (file : HostPath) (bytes : Bytes) : Prop where
  notRemoved : path ∉ s.st.removed
  found : s.disk.fileAt path = some file
  holds : s.disk.files.lookup file = some bytes

/-- Remove a file, and count it as so many objects. -/
def take (s : PruneRun host) (path : CachePath) (file : HostPath) (objects size : ℕ) : PruneRun host :=
  { s with disk := s.disk.erase file, st := s.st.took path objects size }

/-- A file of the objects can be swept: it is old, and temporary or without records. -/
structure Sweepable (now ageSecs : ℕ) (s : PruneRun host) (path : CachePath) : Prop where
  notRemoved : path ∉ s.st.removed
  old : ∃ age, (s.disk.view order).fileAgeSecs path now = some age ∧ ageSecs ≤ age
  free : isTmp path = true ∨ s.st.refCounts.lookup (fileName path.name) = none

/-- A file of the objects is swept if it can be. -/
theorem sweepFile_cases (now ageSecs : ℕ) (path : CachePath) (s : PruneRun host) :
    ¬ Sweepable order now ageSecs s path ∧ s.sweepFile order now ageSecs path = s ∨
      ∃ file bytes, s.Takes path file bytes ∧ Sweepable order now ageSecs s path ∧
        s.sweepFile order now ageSecs path = s.take path file (if isTmp path then 0 else 1) bytes.length := by
  rw [sweepFile, sweepObject]
  by_cases hremoved : path ∈ s.st.removed
  · rw [if_pos hremoved]
    exact Or.inl ⟨fun h => h.notRemoved hremoved, rfl⟩
  rw [if_neg hremoved, Program.run_bind, run_fileAgeSecs (s.disk.shows order)]
  dsimp only
  cases hage : (s.disk.view order).fileAgeSecs path now with
  | none =>
    refine Or.inl ⟨fun h => ?_, rfl⟩
    obtain ⟨age, hsome, _⟩ := h.old
    cases hage.symm.trans hsome
  | some age =>
    dsimp only
    split
    · rename_i hyoung
      refine Or.inl ⟨fun h => ?_, rfl⟩
      obtain ⟨age', hsome, hold⟩ := h.old
      obtain rfl := Option.some.inj (hage.symm.trans hsome)
      exact absurd hold (Nat.not_le_of_lt hyoung)
    rename_i hold
    split
    · rename_i hkeep
      refine Or.inl ⟨fun h => ?_, rfl⟩
      rcases h.free with htmp | hnone
      · simp [htmp] at hkeep
      · simp [hnone] at hkeep
    rename_i hkeep
    rw [Program.run_bind, run_fileMetadata]
    have hfree : isTmp path = true ∨ s.st.refCounts.lookup (fileName path.name) = none := by
      cases htmp : isTmp path with
      | true => exact Or.inl rfl
      | false =>
        rw [htmp] at hkeep
        exact Or.inr (by simpa using hkeep)
    cases hfile : s.disk.fileAt path with
    | none =>
      have hstat : (s.disk.view order).stat path = none := by
        change s.disk.stat path = none
        rw [HostDisk.stat, hfile, Option.bind_none]
      rw [DiskView.fileAgeSecs, hstat] at hage
      cases hage
    | some file =>
      obtain ⟨bytes, hbytes⟩ := HostDisk.exists_bytes hfile
      rw [HostDisk.stat_of_fileAt hfile hbytes]
      dsimp only
      rw [Program.run_bind, run_removeFile, HostDisk.remove, hfile]
      refine Or.inr ⟨file, bytes, ⟨hremoved, hfile, hbytes⟩, ⟨hremoved, ⟨age, hage, Nat.le_of_not_lt hold⟩, hfree⟩, ?_⟩
      rw [take, PruneState.took]
      dsimp only
      rw [if_neg (by decide)]
      split
      · rfl
      · rfl

/-- A temporary file of a record is cleaned up. -/
theorem cleanupFile_cases (now ageSecs : ℕ) (path : CachePath) (s : PruneRun host) :
    s.cleanupFile order now ageSecs path = s ∨ ∃ file bytes, s.Takes path file bytes ∧ isTmp path = true ∧
      s.cleanupFile order now ageSecs path = s.take path file 0 bytes.length := by
  rw [cleanupFile, cleanupTmpFile]
  split
  · exact Or.inl rfl
  rename_i htmp
  by_cases hremoved : path ∈ s.st.removed
  · rw [if_pos hremoved]
    exact Or.inl rfl
  rw [if_neg hremoved, Program.run_bind, run_fileAgeSecs (s.disk.shows order)]
  dsimp only
  cases (s.disk.view order).fileAgeSecs path now with
  | none => exact Or.inl rfl
  | some age =>
    dsimp only
    split
    · exact Or.inl rfl
    rw [Program.run_bind, run_fileMetadata]
    cases hfile : s.disk.fileAt path with
    | none =>
      rw [HostDisk.stat, hfile]
      exact Or.inl rfl
    | some file =>
      obtain ⟨bytes, hbytes⟩ := HostDisk.exists_bytes hfile
      rw [HostDisk.stat_of_fileAt hfile hbytes]
      dsimp only
      rw [Program.run_bind, run_removeFile, HostDisk.remove, hfile]
      refine Or.inr ⟨file, bytes, ⟨hremoved, hfile, hbytes⟩, ?_, rfl⟩
      simpa using htmp

/-- A file of the objects is evicted if it is there. -/
theorem evictFile_cases (path : CachePath) (s : PruneRun host) :
    (∀ file bytes, ¬ s.Takes path file bytes) ∧ s.evictFile path = s ∨
      ∃ file bytes, s.Takes path file bytes ∧
        s.evictFile path = { s.take path file 1 bytes.length with total := s.total - bytes.length } := by
  rw [evictFile]
  by_cases hremoved : path ∈ s.st.removed
  · rw [if_pos hremoved]
    exact Or.inl ⟨fun _ _ h => h.notRemoved hremoved, rfl⟩
  · rw [if_neg hremoved]
    cases hfile : s.disk.fileAt path with
    | none =>
      rw [HostDisk.stat, hfile]
      refine Or.inl ⟨fun _ _ h => ?_, rfl⟩
      cases hfile.symm.trans h.found
    | some file =>
      obtain ⟨bytes, hbytes⟩ := HostDisk.exists_bytes hfile
      rw [HostDisk.stat_of_fileAt hfile hbytes, HostDisk.remove, hfile]
      exact Or.inr ⟨file, bytes, ⟨hremoved, hfile, hbytes⟩, rfl⟩

/-! ## The steps of a phase -/

section Phases

variable (codec : RecordCodec) (now ageSecs limit : ℕ)

/-- Do steps one after another. -/
def run (s : PruneRun host) (steps : List PruneStep) : PruneRun host :=
  steps.foldl (step order codec now ageSecs limit) s

/-- Removing old records. -/
theorem run_dropOldRecords (found : List CacheRecord) (s : PruneRun host) :
    (dropOldRecords now ageSecs found s.st).run (HostDisk.perform order) s.disk =
      ((s.run order codec now ageSecs limit
          ((found.filter fun record => decide (ageSecs ≤ now - record.storedAt.toNat)).map .drop)).st,
        (s.run order codec now ageSecs limit
          ((found.filter fun record => decide (ageSecs ≤ now - record.storedAt.toNat)).map .drop)).disk) := by
  induction found generalizing s with
  | nil => rfl
  | cons record found ih =>
    rw [dropOldRecords]
    by_cases hold : ageSecs ≤ now - record.storedAt.toNat
    · have hfilter : (record :: found).filter (fun record => decide (ageSecs ≤ now - record.storedAt.toNat)) =
          record :: found.filter fun record => decide (ageSecs ≤ now - record.storedAt.toNat) :=
        List.filter_cons_of_pos (decide_eq_true hold)
      rw [if_pos hold, Program.run_bind, hfilter]
      exact ih (s.dropRecord order record)
    · have hfilter : (record :: found).filter (fun record => decide (ageSecs ≤ now - record.storedAt.toNat)) =
          found.filter fun record => decide (ageSecs ≤ now - record.storedAt.toNat) :=
        List.filter_cons_of_neg (by simpa using hold)
      rw [if_neg hold, hfilter]
      exact ih s

/-- Sweeping the objects. -/
theorem run_sweepObjects (paths : List CachePath) (s : PruneRun host) :
    (sweepObjects now ageSecs paths s.st).run (HostDisk.perform order) s.disk =
      ((s.run order codec now ageSecs limit (paths.map .sweep)).st,
        (s.run order codec now ageSecs limit (paths.map .sweep)).disk) := by
  induction paths generalizing s with
  | nil => rfl
  | cons path paths ih =>
    rw [sweepObjects, Program.run_bind]
    exact ih (s.sweepFile order now ageSecs path)

/-- Cleaning up temporary files of records. -/
theorem run_cleanupTmpFiles (paths : List CachePath) (s : PruneRun host) :
    (cleanupTmpFiles now ageSecs paths s.st).run (HostDisk.perform order) s.disk =
      ((s.run order codec now ageSecs limit (paths.map .cleanup)).st,
        (s.run order codec now ageSecs limit (paths.map .cleanup)).disk) := by
  induction paths generalizing s with
  | nil => rfl
  | cons path paths ih =>
    have hrest := ih (s.cleanupFile order now ageSecs path)
    have hst : (s.cleanupFile order now ageSecs path).st =
        ((cleanupTmpFile now ageSecs path s.st).run (HostDisk.perform order) s.disk).1 := by
      rw [cleanupFile]
    have hdisk : (s.cleanupFile order now ageSecs path).disk =
        ((cleanupTmpFile now ageSecs path s.st).run (HostDisk.perform order) s.disk).2 := by
      rw [cleanupFile]
    have hstep : s.step order codec now ageSecs limit (.cleanup path) = s.cleanupFile order now ageSecs path := rfl
    rw [hst, hdisk] at hrest
    rw [cleanupTmpFiles, Program.run_bind, hrest, run, run, List.map_cons, List.foldl_cons, hstep]

/-- Nothing is removed for its size once the rest is small enough. -/
theorem run_of_total_le {s : PruneRun host} (hle : s.total ≤ limit) (steps : List PruneStep)
    (hsteps : ∀ e ∈ steps, (∃ record, e = .shrink record) ∨ ∃ path, e = .evict path) :
    s.run order codec now ageSecs limit steps = s := by
  induction steps with
  | nil => rfl
  | cons e steps ih =>
    have hstep : s.step order codec now ageSecs limit e = s := by
      rcases hsteps e List.mem_cons_self with ⟨record, rfl⟩ | ⟨path, rfl⟩
      · exact if_pos hle
      · exact if_pos hle
    rw [run, List.foldl_cons, hstep]
    exact ih fun e he => hsteps e (List.mem_cons_of_mem _ he)

/-- No record is removed for its size once the rest is small enough. -/
theorem run_shrink_of_total_le {s : PruneRun host} (hle : s.total ≤ limit) (found : List CacheRecord) :
    s.run order codec now ageSecs limit (found.map .shrink) = s := by
  refine run_of_total_le order codec now ageSecs limit hle _ fun e he => ?_
  obtain ⟨record, _, rfl⟩ := List.mem_map.mp he
  exact Or.inl ⟨record, rfl⟩

/-- No object is removed for its size once the rest is small enough. -/
theorem run_evict_of_total_le {s : PruneRun host} (hle : s.total ≤ limit) (paths : List CachePath) :
    s.run order codec now ageSecs limit (paths.map .evict) = s := by
  refine run_of_total_le order codec now ageSecs limit hle _ fun e he => ?_
  obtain ⟨path, _, rfl⟩ := List.mem_map.mp he
  exact Or.inr ⟨path, rfl⟩

/-- Removing records until the rest is small enough. -/
theorem run_dropRecordsTo (found : List CacheRecord) (s : PruneRun host) :
    (dropRecordsTo limit found s.total s.st).run (HostDisk.perform order) s.disk =
      (((s.run order codec now ageSecs limit (found.map .shrink)).total,
          (s.run order codec now ageSecs limit (found.map .shrink)).st),
        (s.run order codec now ageSecs limit (found.map .shrink)).disk) := by
  induction found generalizing s with
  | nil => rfl
  | cons record found ih =>
    rw [dropRecordsTo]
    by_cases hle : s.total ≤ limit
    · rw [if_pos hle, run_shrink_of_total_le order codec now ageSecs limit hle]
      rfl
    · have hstep : s.step order codec now ageSecs limit (.shrink record) = s.dropRecord order record := if_neg hle
      rw [if_neg hle, Program.run_bind, run, List.map_cons, List.foldl_cons, hstep]
      exact ih (s.dropRecord order record)

/-- Removing objects until the rest is small enough. -/
theorem run_dropObjectsTo (paths : List CachePath) (s : PruneRun host) :
    (dropObjectsTo limit paths s.total s.st).run (HostDisk.perform order) s.disk =
      ((s.run order codec now ageSecs limit (paths.map .evict)).st,
        (s.run order codec now ageSecs limit (paths.map .evict)).disk) := by
  induction paths generalizing s with
  | nil => rfl
  | cons path paths ih =>
    rw [dropObjectsTo]
    by_cases hle : s.total ≤ limit
    · rw [if_pos hle, run_evict_of_total_le order codec now ageSecs limit hle]
      rfl
    · have hstep : s.step order codec now ageSecs limit (.evict path) = s.evictFile path := if_neg hle
      rw [if_neg hle, run, List.map_cons, List.foldl_cons, hstep, evictFile]
      by_cases hremoved : path ∈ s.st.removed
      · rw [if_pos hremoved, if_pos hremoved]
        exact ih s
      · rw [if_neg hremoved, if_neg hremoved, Program.run_bind, run_fileMetadata]
        dsimp only
        cases hstat : s.disk.stat path with
        | none => exact ih s
        | some stat =>
          dsimp only
          rw [Program.run_bind, run_removeFile]
          cases hremove : s.disk.remove path with
          | mk done disk =>
            cases done with
            | false => exact ih { s with disk := disk }
            | true => exact ih ⟨disk, s.st.took path 1 stat.len, s.total - stat.len⟩

/-- The records that are too old. -/
def agingSteps (s : PruneRun host) : List PruneStep :=
  (((s.disk.view order).records codec).filter fun record => decide (ageSecs ≤ now - record.storedAt.toNat)).map .drop

/-- The objects, the oldest first. -/
def sweepSteps (s : PruneRun host) : List PruneStep := (s.disk.view order).oldestObjects.map .sweep

/-- The files next to the records. -/
def cleanupSteps (s : PruneRun host) : List PruneStep :=
  ((order.entries s.disk .fingerprints).filter fun path => decide ('/' ∉ path.name.toList)).map .cleanup

/-- The records and then the objects, the oldest first. -/
def sizeSteps (s : PruneRun host) : List PruneStep :=
  .recount ::
    ((sortByKey (fun record => record.storedAt.toNat) ((s.disk.view order).records codec)).map .shrink ++
      (s.disk.view order).oldestObjects.map .evict)

/-- The steps of phases, each of which starts with what the ones before left. -/
def stepsOf : List (PruneRun host → List PruneStep) → PruneRun host → List PruneStep
  | [], _ => []
  | phase :: phases, s => phase s ++ stepsOf phases (s.run order codec now ageSecs limit (phase s))

/-- Doing the steps of phases is doing those of the first, and then the others. -/
theorem run_stepsOf_cons (phase : PruneRun host → List PruneStep) (phases : List (PruneRun host → List PruneStep))
    (s : PruneRun host) :
    s.run order codec now ageSecs limit (stepsOf order codec now ageSecs limit (phase :: phases) s) =
      (s.run order codec now ageSecs limit (phase s)).run order codec now ageSecs limit
        (stepsOf order codec now ageSecs limit phases (s.run order codec now ageSecs limit (phase s))) := by
  rw [stepsOf, run, List.foldl_append]
  rfl

/-- The second phase is its steps. -/
theorem run_pruneBySize (maxSize : Option ℕ) (s : PruneRun host) :
    (pruneBySize codec maxSize s.st).run (HostDisk.perform order) s.disk =
      ((s.run order codec now ageSecs (maxSize.getD (2 ^ 64 - 1)) (sizeSteps order codec s)).st,
        (s.run order codec now ageSecs (maxSize.getD (2 ^ 64 - 1)) (sizeSteps order codec s)).disk) := by
  have hshows := s.disk.shows order
  rw [pruneBySize, Program.run_bind, run_records codec hshows, Program.run_bind, run_oldestObjects hshows,
    Program.run_bind, run_totalSize hshows, Program.run_bind, run_refCounts codec hshows, Program.run_bind]
  obtain ⟨t, ht⟩ : ∃ t, t = (s.recount order codec).run order codec now ageSecs (maxSize.getD (2 ^ 64 - 1))
      ((sortByKey (fun record => record.storedAt.toNat) ((s.disk.view order).records codec)).map .shrink) := ⟨_, rfl⟩
  have hrecords := run_dropRecordsTo order codec now ageSecs (maxSize.getD (2 ^ 64 - 1))
    (sortByKey (fun record => record.storedAt.toNat) ((s.disk.view order).records codec)) (s.recount order codec)
  have hsteps : s.run order codec now ageSecs (maxSize.getD (2 ^ 64 - 1)) (sizeSteps order codec s) =
      t.run order codec now ageSecs (maxSize.getD (2 ^ 64 - 1)) ((s.disk.view order).oldestObjects.map .evict) := by
    rw [ht, sizeSteps, run, List.foldl_cons, List.foldl_append]
    rfl
  rw [← ht] at hrecords
  dsimp only [recount] at hrecords ⊢
  rw [hrecords, hsteps]
  exact run_dropObjectsTo order codec now ageSecs (maxSize.getD (2 ^ 64 - 1)) _ t

/-- The first phase is its steps. -/
theorem run_pruneByAge (disk : HostDisk host) :
    (pruneByAge codec now ageSecs).run (HostDisk.perform order) disk =
      ((run order codec now ageSecs limit ⟨disk, ⟨countRefs ((disk.view order).records codec), ∅, ⟨0, 0, 0⟩⟩, 0⟩
          (stepsOf order codec now ageSecs limit [agingSteps order codec now ageSecs, sweepSteps order, cleanupSteps order]
            ⟨disk, ⟨countRefs ((disk.view order).records codec), ∅, ⟨0, 0, 0⟩⟩, 0⟩)).st,
        (run order codec now ageSecs limit ⟨disk, ⟨countRefs ((disk.view order).records codec), ∅, ⟨0, 0, 0⟩⟩, 0⟩
          (stepsOf order codec now ageSecs limit [agingSteps order codec now ageSecs, sweepSteps order, cleanupSteps order]
            ⟨disk, ⟨countRefs ((disk.view order).records codec), ∅, ⟨0, 0, 0⟩⟩, 0⟩)).disk) := by
  obtain ⟨s, hs⟩ : ∃ s : PruneRun host, s = ⟨disk, ⟨countRefs ((disk.view order).records codec), ∅, ⟨0, 0, 0⟩⟩, 0⟩ :=
    ⟨_, rfl⟩
  rw [← hs, pruneByAge, Program.run_bind, run_refCounts codec (disk.shows order), Program.run_bind,
    run_records codec (disk.shows order), Program.run_bind]
  have haging := run_dropOldRecords order codec now ageSecs limit ((disk.view order).records codec) s
  have hst : s.st = ⟨countRefs ((disk.view order).records codec), ∅, ⟨0, 0, 0⟩⟩ := by rw [hs]
  have hdisk : s.disk = disk := by rw [hs]
  rw [hst, hdisk] at haging
  dsimp only
  rw [haging, run_stepsOf_cons, run_stepsOf_cons, run_stepsOf_cons, stepsOf]
  obtain ⟨t, ht⟩ : ∃ t, t = s.run order codec now ageSecs limit (agingSteps order codec now ageSecs s) := ⟨_, rfl⟩
  have hsame : s.run order codec now ageSecs limit
      ((((disk.view order).records codec).filter fun record =>
        decide (ageSecs ≤ now - record.storedAt.toNat)).map .drop) = t := by
    rw [ht, agingSteps, hdisk]
  rw [hsame, ← ht]
  dsimp only
  rw [Program.run_bind, run_oldestObjects (t.disk.shows order), Program.run_bind]
  dsimp only
  rw [run_sweepObjects order codec now ageSecs limit _ t]
  obtain ⟨u, hu⟩ : ∃ u, u = t.run order codec now ageSecs limit (sweepSteps order t) := ⟨_, rfl⟩
  have hsame' : t.run order codec now ageSecs limit ((t.disk.view order).oldestObjects.map .sweep) = u := by
    rw [hu, sweepSteps]
  rw [hsame', ← hu]
  dsimp only
  rw [Program.run_bind]
  exact run_cleanupTmpFiles order codec now ageSecs limit _ u

end Phases

/-! ## Pruning -/

section Pruning

variable (codec : RecordCodec) (now : ℕ) (olderThan maxSize : Option ℕ)

/-- Where pruning starts: references are counted for the first phase, if there is one. -/
def start (disk : HostDisk host) : PruneRun host :=
  ⟨disk, ⟨match olderThan with
    | some _ => countRefs ((disk.view order).records codec)
    | none => ∅, ∅, ⟨0, 0, 0⟩⟩, 0⟩

/-- The phases by age. -/
def agePhases : List (PruneRun host → List PruneStep) :=
  match olderThan with
  | some ageSecs => [agingSteps order codec now ageSecs, sweepSteps order, cleanupSteps order]
  | none => []

/-- The steps of pruning: those by age, and then those by size. -/
def pruneSteps (disk : HostDisk host) : List PruneStep :=
  stepsOf order codec now (olderThan.getD 0) (maxSize.getD (2 ^ 64 - 1))
    (agePhases order codec now olderThan ++ [sizeSteps order codec]) (start order codec olderThan disk)

/-- What pruning ends with. -/
def pruned (disk : HostDisk host) : PruneRun host :=
  (start order codec olderThan disk).run order codec now (olderThan.getD 0) (maxSize.getD (2 ^ 64 - 1))
    (pruneSteps order codec now olderThan maxSize disk)

/-- What the phases by age end with. -/
def aged (disk : HostDisk host) : PruneRun host :=
  (start order codec olderThan disk).run order codec now (olderThan.getD 0) (maxSize.getD (2 ^ 64 - 1))
    (stepsOf order codec now (olderThan.getD 0) (maxSize.getD (2 ^ 64 - 1)) (agePhases order codec now olderThan)
      (start order codec olderThan disk))

/-- What removing records by size ends with. -/
def shrunk (disk : HostDisk host) : PruneRun host :=
  ((aged order codec now olderThan maxSize disk).recount order codec).run order codec now (olderThan.getD 0)
    (maxSize.getD (2 ^ 64 - 1)) ((sortByKey (fun record => record.storedAt.toNat)
      (((aged order codec now olderThan maxSize disk).disk.view order).records codec)).map .shrink)

/-- The steps of more phases. -/
theorem stepsOf_append (ageSecs limit : ℕ) (first second : List (PruneRun host → List PruneStep)) (s : PruneRun host) :
    stepsOf order codec now ageSecs limit (first ++ second) s =
      stepsOf order codec now ageSecs limit first s ++ stepsOf order codec now ageSecs limit second
        (s.run order codec now ageSecs limit (stepsOf order codec now ageSecs limit first s)) := by
  induction first generalizing s with
  | nil => rfl
  | cons phase first ih =>
    rw [List.cons_append, stepsOf, stepsOf, ih, List.append_assoc, run, run, run, List.foldl_append]

/-- Pruning ends with the phase by size. -/
theorem pruned_eq (disk : HostDisk host) :
    pruned order codec now olderThan maxSize disk =
      (aged order codec now olderThan maxSize disk).run order codec now (olderThan.getD 0)
        (maxSize.getD (2 ^ 64 - 1)) (sizeSteps order codec (aged order codec now olderThan maxSize disk)) := by
  rw [pruned, pruneSteps, stepsOf_append, ← aged, run, List.foldl_append, stepsOf, stepsOf, List.append_nil]
  rfl

/-- Pruning ends with evicting objects by size. -/
theorem pruned_eq_shrunk (disk : HostDisk host) :
    pruned order codec now olderThan maxSize disk =
      (shrunk order codec now olderThan maxSize disk).run order codec now (olderThan.getD 0)
        (maxSize.getD (2 ^ 64 - 1))
          (((aged order codec now olderThan maxSize disk).disk.view order).oldestObjects.map .evict) := by
  rw [pruned_eq, shrunk, sizeSteps, run, run, run, List.foldl_cons, List.foldl_append]
  rfl

/-- Pruning alone is its steps. -/
theorem run_prune (disk : HostDisk host) :
    (prune codec now olderThan maxSize).run (HostDisk.perform order) disk =
      ((pruned order codec now olderThan maxSize disk).st.report,
        (pruned order codec now olderThan maxSize disk).disk) := by
  have hsize : ∀ first : PruneM PruneState, first.run (HostDisk.perform order) disk =
      ((aged order codec now olderThan maxSize disk).st, (aged order codec now olderThan maxSize disk).disk) →
        (first >>= fun st => pruneBySize codec maxSize st >>= fun st => pure st.report : PruneM PruneReport).run
            (HostDisk.perform order) disk =
          ((pruned order codec now olderThan maxSize disk).st.report,
            (pruned order codec now olderThan maxSize disk).disk) := by
    intro first hfirst
    rw [Program.run_bind, hfirst, pruned_eq, Program.run_bind,
      run_pruneBySize order codec now (olderThan.getD 0) maxSize]
    rfl
  cases olderThan with
  | none => exact hsize (pure ⟨∅, ∅, ⟨0, 0, 0⟩⟩) rfl
  | some ageSecs =>
    exact hsize (pruneByAge codec now ageSecs)
      (run_pruneByAge order codec now ageSecs (maxSize.getD (2 ^ 64 - 1)) disk)

end Pruning

end PruneRun

end Forge.Cache
