import Forge.Cache.PruneSteps

/-!
# What the steps of pruning are about

A step is about a record or another file that was on the disk when pruning started, and no step writes
a file. So what a step removes has the place and the contents that it had then.
-/

namespace Forge.Cache

open Forge.Common

variable {host : Host}

/-- The record that the contents of a file are. -/
def recordOf (codec : RecordCodec) (path : CachePath) (bytes : Bytes) : Option CacheRecord :=
  if extension path.name = some "json" then
    (codec.fromSlice bytes).map fun record =>
      ⟨record.key.getD (legacyKey path), record.fingerprint, record.storedAt, path, bytes.length, record.artifactHash⟩
  else none

/-- A record has the path and the size of its file. -/
theorem recordOf_eq_some {codec : RecordCodec} {path : CachePath} {bytes : Bytes} {record : CacheRecord}
    (hrecord : recordOf codec path bytes = some record) :
    extension path.name = some "json" ∧ record.path = path ∧ record.size = bytes.length := by
  rw [recordOf] at hrecord
  split at hrecord
  · rename_i hjson
    obtain ⟨read, _, rfl⟩ := Option.map_eq_some_iff.mp hrecord
    exact ⟨hjson, rfl, rfl⟩
  · cases hrecord

/-- A record is found in what a path leads to. -/
theorem DiskView.recordIn_eq (codec : RecordCodec) (view : DiskView) (path : CachePath) :
    view.recordIn codec path = (view.contents path).bind (recordOf codec path) := by
  rw [DiskView.recordIn]
  by_cases hjson : extension path.name = some "json"
  · rw [if_pos hjson]
    refine congrArg (Option.bind _) (funext fun bytes => ?_)
    rw [recordOf, if_pos hjson]
  · rw [if_neg hjson]
    cases view.contents path with
    | none => rfl
    | some bytes => rw [Option.bind_some, recordOf, if_neg hjson]

/-- A file below the directory of records is one. -/
structure RecordAt (codec : RecordCodec) (disk : HostDisk host) (record : CacheRecord) (file : HostPath)
    (bytes : Bytes) : Prop where
  below : host.below .fingerprints file = some record.path
  holds : disk.files.lookup file = some bytes
  read : recordOf codec record.path bytes = some record

namespace HostDisk

variable {codec : RecordCodec} {disk disk' : HostDisk host}

/-- The path of a file that is listed leads to it. -/
theorem fileAt_of_below {dir : CacheDir} {file : HostPath} {path : CachePath} (hfile : file ∈ disk.files)
    (hbelow : host.below dir file = some path) : disk.fileAt path = some file :=
  fileAt_eq_some_iff.mpr ⟨resolve_below hfile hbelow, hfile⟩

/-- What a path leads to was there, and is what it led to. -/
theorem Within.fileAt (hwithin : disk'.Within disk) {path : CachePath} {file : HostPath}
    (hfile : disk'.fileAt path = some file) : disk.fileAt path = some file := by
  obtain ⟨hresolve, hmem⟩ := fileAt_eq_some_iff.mp hfile
  exact fileAt_eq_some_iff.mpr ⟨hresolve, hwithin.mem hmem⟩

/-- A path that led to nothing leads to nothing. -/
theorem Within.fileAt_eq_none (hwithin : disk'.Within disk) {path : CachePath} (hnone : disk.fileAt path = none) :
    disk'.fileAt path = none := by
  rw [Option.eq_none_iff_forall_ne_some]
  intro file hfile
  cases hnone.symm.trans (hwithin.fileAt hfile)

/-- A path that was listed leads to the file that it was listed for. -/
theorem Within.eq_of_below (hwithin : disk'.Within disk) {dir : CacheDir} {path : CachePath} {file listed : HostPath}
    (hlisted : listed ∈ disk.files) (hbelow : host.below dir listed = some path) (hfile : disk'.fileAt path = some file) :
    file = listed :=
  Option.some.inj ((hwithin.fileAt hfile).symm.trans (fileAt_of_below hlisted hbelow))

/-- The records of a disk are the files below their directory that are ones. -/
theorem mem_records_iff (order : WalkOrder host) (record : CacheRecord) :
    record ∈ (disk.view order).records codec ↔ ∃ file bytes, RecordAt codec disk record file bytes := by
  rw [DiskView.records, List.mem_filterMap]
  constructor
  · intro h
    obtain ⟨path, hentry, hrecord⟩ := h
    obtain ⟨file, hbelow, hfile⟩ := mem_listing_iff.mp ((order.perm disk .fingerprints).mem_iff.mp hentry)
    obtain ⟨bytes, hbytes⟩ := exists_bytes hfile
    have hcontents : (disk.view order).contents path = some bytes := by
      change disk.contents path = _
      rw [HostDisk.contents, hfile, Option.bind_some, hbytes]
    rw [DiskView.recordIn_eq, hcontents, Option.bind_some] at hrecord
    obtain ⟨_, rfl, _⟩ := recordOf_eq_some hrecord
    exact ⟨file, bytes, hbelow, hbytes, hrecord⟩
  · intro h
    obtain ⟨file, bytes, hrecord⟩ := h
    have hmem := AList.lookup_isSome.mp (Option.isSome_of_eq_some hrecord.holds)
    have hfile := fileAt_of_below hmem hrecord.below
    refine ⟨record.path, (order.perm disk .fingerprints).mem_iff.mpr (mem_listing_iff.mpr ⟨file, hrecord.below, hfile⟩), ?_⟩
    have hcontents : (disk.view order).contents record.path = some bytes := by
      change disk.contents record.path = _
      rw [HostDisk.contents, hfile, Option.bind_some, hrecord.holds]
    rw [DiskView.recordIn_eq, hcontents, Option.bind_some]
    exact hrecord.read

/-- The objects of a disk are the files below their directory. -/
theorem mem_oldestObjects_iff (order : WalkOrder host) (path : CachePath) :
    path ∈ (disk.view order).oldestObjects ↔ ∃ file ∈ disk.files, host.below .objects file = some path := by
  rw [(disk.view order).oldestObjects_perm.mem_iff]
  refine (order.perm disk .objects).mem_iff.trans (mem_listing_iff.trans ?_)
  constructor
  · intro h
    obtain ⟨file, hbelow, hfile⟩ := h
    exact ⟨file, (fileAt_eq_some_iff.mp hfile).2, hbelow⟩
  · intro h
    obtain ⟨file, hfile, hbelow⟩ := h
    exact ⟨file, hbelow, fileAt_of_below hfile hbelow⟩

end HostDisk

/-- A record that is there was there. -/
theorem RecordAt.of_within {codec : RecordCodec} {disk disk' : HostDisk host} {record : CacheRecord} {file : HostPath}
    {bytes : Bytes} (hrecord : RecordAt codec disk' record file bytes) (hwithin : disk'.Within disk) :
    RecordAt codec disk record file bytes :=
  ⟨hrecord.below, hwithin _ _ hrecord.holds, hrecord.read⟩

/-- The path of a record leads to it, as long as it is there. -/
theorem RecordAt.of_fileAt {codec : RecordCodec} {disk disk' : HostDisk host} {record : CacheRecord}
    {file listed : HostPath} {bytes : Bytes} (hrecord : RecordAt codec disk record listed bytes)
    (hwithin : disk'.Within disk) (hfile : disk'.fileAt record.path = some file) :
    RecordAt codec disk' record file bytes := by
  obtain rfl := hwithin.eq_of_below (AList.lookup_isSome.mp (Option.isSome_of_eq_some hrecord.holds)) hrecord.below hfile
  obtain ⟨bytes', hbytes⟩ := HostDisk.exists_bytes hfile
  obtain rfl : bytes' = bytes := Option.some.inj ((hwithin _ _ hbytes).symm.trans hrecord.holds)
  exact ⟨hrecord.below, hbytes, hrecord.read⟩

/-- A step is about a record, or a file below one of the directories. -/
def May (codec : RecordCodec) (disk : HostDisk host) : PruneStep → Prop
  | .drop record => ∃ file bytes, RecordAt codec disk record file bytes
  | .shrink record => ∃ file bytes, RecordAt codec disk record file bytes
  | .sweep path => ∃ file ∈ disk.files, host.below .objects file = some path
  | .evict path => ∃ file ∈ disk.files, host.below .objects file = some path
  | .cleanup path => ∃ file ∈ disk.files, host.below .fingerprints file = some path
  | .recount => True

namespace PruneRun

variable (order : WalkOrder host) (codec : RecordCodec) (now ageSecs limit : ℕ)

/-- Removing a record removes files only. -/
theorem Dropped.within {s t : PruneRun host} {record : CacheRecord} (hdropped : Dropped s record t) :
    t.disk.Within s.disk := by
  cases hdropped with
  | gone => exact .refl _
  | alone => exact s.disk.within_erase _
  | cascaded => exact ((s.disk.erase _).within_erase _).trans (s.disk.within_erase _)

/-- A step removes files only. -/
theorem step_within (s : PruneRun host) (e : PruneStep) :
    (s.step order codec now ageSecs limit e).disk.Within s.disk := by
  cases e with
  | drop record => exact (dropped_dropRecord order record s).within
  | sweep path =>
    rcases sweepFile_cases order now ageSecs path s with ⟨_, hsame⟩ | ⟨file, bytes, _, _, htake⟩
    · rw [step, hsame]
      exact .refl _
    · rw [step, htake]
      exact s.disk.within_erase file
  | cleanup path =>
    rcases cleanupFile_cases order now ageSecs path s with hsame | ⟨file, bytes, _, _, htake⟩
    · rw [step, hsame]
      exact .refl _
    · rw [step, htake]
      exact s.disk.within_erase file
  | recount => exact .refl _
  | shrink record =>
    rw [step]
    split
    · exact .refl _
    · exact (dropped_dropRecord order record s).within
  | evict path =>
    rw [step]
    split
    · exact .refl _
    · rcases evictFile_cases path s with ⟨_, hsame⟩ | ⟨file, bytes, _, htake⟩
      · rw [hsame]
        exact .refl _
      · rw [htake]
        exact s.disk.within_erase file

/-- Steps remove files only. -/
theorem run_within (s : PruneRun host) (steps : List PruneStep) :
    (s.run order codec now ageSecs limit steps).disk.Within s.disk := by
  induction steps generalizing s with
  | nil => exact .refl _
  | cons e steps ih => exact (ih _).trans (step_within order codec now ageSecs limit s e)

/-! ## Removing records -/

/-- A record that was removed is not there. -/
theorem Dropped.fileAt_eq_none {s t : PruneRun host} {record : CacheRecord} (hdropped : Dropped s record t) :
    t.disk.fileAt record.path = none := by
  have herased : ∀ {file}, s.disk.fileAt record.path = some file → (s.disk.erase file).fileAt record.path = none := by
    intro file hfile
    rw [HostDisk.fileAt_erase, hfile, Option.filter_some, if_neg (by simp)]
  cases hdropped with
  | gone hfile => exact hfile
  | alone hfile => exact herased hfile
  | cascaded hfile =>
    rw [HostDisk.fileAt_erase, herased hfile]
    rfl

/-- Remove records one after another. -/
def dropAll (found : List CacheRecord) (s : PruneRun host) : PruneRun host :=
  found.foldl (fun s record => s.dropRecord order record) s

/-- Records that were removed are not there. -/
theorem fileAt_dropAll (found : List CacheRecord) (s : PruneRun host) :
    (s.dropAll order found).disk.Within s.disk ∧
      ∀ record ∈ found, (s.dropAll order found).disk.fileAt record.path = none := by
  induction found generalizing s with
  | nil => exact ⟨.refl _, fun _ h => absurd h List.not_mem_nil⟩
  | cons record found ih =>
    have hdropped := dropped_dropRecord order record s
    obtain ⟨hwithin, hgone⟩ := ih (s.dropRecord order record)
    refine ⟨hwithin.trans hdropped.within, fun other hother => ?_⟩
    rcases List.mem_cons.mp hother with rfl | hother
    · exact hwithin.fileAt_eq_none hdropped.fileAt_eq_none
    · exact hgone other hother

/-- Making room removes a part of the records from the front: all of them or until the rest is small enough, and
each while it was too large. -/
theorem run_shrinks_eq (found : List CacheRecord) (s : PruneRun host) :
    ∃ first rest, found = first ++ rest ∧
      s.run order codec now ageSecs limit (found.map .shrink) = s.dropAll order first ∧
      (rest = [] ∨ (s.dropAll order first).total ≤ limit) ∧
      ∀ others last, first = others ++ [last] → limit < (s.dropAll order others).total := by
  induction found generalizing s with
  | nil =>
    refine ⟨[], [], rfl, rfl, Or.inl rfl, fun others last h => ?_⟩
    exact absurd h (List.append_ne_nil_of_right_ne_nil _ (List.cons_ne_nil _ _)).symm
  | cons record found ih =>
    by_cases hle : s.total ≤ limit
    · refine ⟨[], record :: found, rfl, run_shrink_of_total_le order codec now ageSecs limit hle _, Or.inr hle,
        fun others last h => ?_⟩
      exact absurd h (List.append_ne_nil_of_right_ne_nil _ (List.cons_ne_nil _ _)).symm
    · obtain ⟨first, rest, rfl, hrun, hend, hwhile⟩ := ih (s.dropRecord order record)
      have hstep : s.step order codec now ageSecs limit (.shrink record) = s.dropRecord order record := if_neg hle
      refine ⟨record :: first, rest, rfl, ?_, hend, fun others last h => ?_⟩
      · rw [PruneRun.run, List.map_cons, List.foldl_cons, hstep]
        exact hrun
      · cases others with
        | nil => exact Nat.lt_of_not_le hle
        | cons other others =>
          obtain ⟨rfl, hrest⟩ := List.cons.inj h
          exact hwhile others last hrest

variable {codec}

/-- What holds of the steps of each phase holds of the steps of all phases. -/
theorem forall_stepsOf {disk : HostDisk host} {P : PruneStep → Prop} {phases : List (PruneRun host → List PruneStep)}
    (hphases : ∀ phase ∈ phases, ∀ s : PruneRun host, s.disk.Within disk → ∀ e ∈ phase s, P e)
    {s : PruneRun host} (hwithin : s.disk.Within disk) :
    ∀ e ∈ stepsOf order codec now ageSecs limit phases s, P e := by
  induction phases generalizing s with
  | nil => exact fun e he => absurd he List.not_mem_nil
  | cons phase phases ih =>
    intro e he
    rcases List.mem_append.mp he with he | he
    · exact hphases phase List.mem_cons_self s hwithin e he
    · exact ih (fun other hother => hphases other (List.mem_cons_of_mem _ hother))
        ((run_within order codec now ageSecs limit s _).trans hwithin) e he

variable (codec)

/-- The steps by size are about files that were there. -/
theorem may_sizeSteps {disk : HostDisk host} {s : PruneRun host} (hwithin : s.disk.Within disk) :
    ∀ e ∈ sizeSteps order codec s, May codec disk e := by
  intro e he
  rcases List.mem_cons.mp he with rfl | he
  · trivial
  · rcases List.mem_append.mp he with he | he
    · obtain ⟨record, hrecord, rfl⟩ := List.mem_map.mp he
      rw [(sortByKey_perm _ _).mem_iff] at hrecord
      obtain ⟨file, bytes, hat⟩ := (HostDisk.mem_records_iff order record).mp hrecord
      exact ⟨file, bytes, hat.of_within hwithin⟩
    · obtain ⟨path, hpath, rfl⟩ := List.mem_map.mp he
      obtain ⟨file, hfile, hbelow⟩ := (HostDisk.mem_oldestObjects_iff order path).mp hpath
      exact ⟨file, hwithin.mem hfile, hbelow⟩

/-- The steps by age are about files that were there. -/
theorem may_agePhases {disk : HostDisk host} {olderThan : Option ℕ} {phase : PruneRun host → List PruneStep}
    (hphase : phase ∈ agePhases order codec now olderThan) {s : PruneRun host} (hwithin : s.disk.Within disk) :
    ∀ e ∈ phase s, May codec disk e := by
  intro e he
  cases olderThan with
  | none => cases hphase
  | some ageSecs =>
    rw [agePhases, List.mem_cons, List.mem_cons, List.mem_singleton] at hphase
    rcases hphase with rfl | rfl | rfl
    · obtain ⟨record, hrecord, rfl⟩ := List.mem_map.mp he
      obtain ⟨file, bytes, hat⟩ := (HostDisk.mem_records_iff order record).mp (List.mem_filter.mp hrecord).1
      exact ⟨file, bytes, hat.of_within hwithin⟩
    · obtain ⟨path, hpath, rfl⟩ := List.mem_map.mp he
      obtain ⟨file, hfile, hbelow⟩ := (HostDisk.mem_oldestObjects_iff order path).mp hpath
      exact ⟨file, hwithin.mem hfile, hbelow⟩
    · obtain ⟨path, hpath, rfl⟩ := List.mem_map.mp he
      have hlisted := (order.perm s.disk .fingerprints).mem_iff.mp (List.mem_filter.mp hpath).1
      obtain ⟨file, hbelow, hfile⟩ := HostDisk.mem_listing_iff.mp hlisted
      exact ⟨file, hwithin.mem (HostDisk.fileAt_eq_some_iff.mp hfile).2, hbelow⟩

/-- The steps of pruning are about files that were there when it started. -/
theorem may_pruneSteps (olderThan maxSize : Option ℕ) (disk : HostDisk host) :
    ∀ e ∈ pruneSteps order codec now olderThan maxSize disk, May codec disk e := by
  refine forall_stepsOf order now _ _ (fun phase hphase s hwithin => ?_) (.refl disk)
  rcases List.mem_append.mp hphase with hage | hsize
  · exact may_agePhases order codec now hage hwithin
  · rw [List.mem_singleton] at hsize
    subst hsize
    exact may_sizeSteps order codec hwithin

end PruneRun

end Forge.Cache
