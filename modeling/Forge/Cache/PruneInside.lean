import Forge.Cache.Pruned
import Mathlib.Order.SetNotation

/-!
# Where pruning removes files

Files are listed below the two directories of the cache, but the file that is removed with a record is
the one that the text of its hash leads to. So pruning stays inside the directories exactly when no
record is removed whose hash leads to a file outside them, and takes it along.
-/

namespace Forge.Cache

open Forge.Common

/-- A file is below one of the two directories. -/
def Host.inside (host : Host) (file : HostPath) : Bool :=
  (host.below .objects file).isSome || (host.below .fingerprints file).isSome

variable {host : Host}

/-- All files that are gone were inside. -/
def StaysInside (before after : HostDisk host) : Prop :=
  ∀ file ∈ before.files, file ∉ after.files → host.inside file = true

/-- What is below a directory is inside. -/
theorem inside_of_below {dir : CacheDir} {file : HostPath} {path : CachePath} (hbelow : host.below dir file = some path) :
    host.inside file = true := by
  cases dir with
  | fingerprints => rw [Host.inside, hbelow, Option.isSome_some, Bool.or_true]
  | objects => rw [Host.inside, hbelow, Option.isSome_some, Bool.true_or]

namespace HostDisk

/-- The files outside. -/
def outside (disk : HostDisk host) : Set HostPath := {file | file ∈ disk.files ∧ host.inside file = false}

/-- The files outside after a file was removed. -/
theorem outside_erase (disk : HostDisk host) (file : HostPath) :
    (disk.erase file).outside = {other | other ∈ disk.outside ∧ other ≠ file} := by
  ext other
  rw [outside, outside, Set.mem_ofPred_eq, Set.mem_ofPred_eq, Set.mem_ofPred_eq, erase, AList.mem_erase]
  exact ⟨fun h => ⟨⟨h.1.2, h.2⟩, h.1.1⟩, fun h => ⟨⟨h.2, h.1.1⟩, h.1.2⟩⟩

/-- Removing a file leaves no more files outside. -/
theorem outside_erase_le (disk : HostDisk host) (file : HostPath) : (disk.erase file).outside ≤ disk.outside := by
  rw [outside_erase]
  exact fun _ h => h.1

/-- Removing a file leaves the files outside exactly when it is inside. -/
theorem outside_erase_eq_iff {disk : HostDisk host} {file : HostPath} (hfile : file ∈ disk.files) :
    (disk.erase file).outside = disk.outside ↔ host.inside file = true := by
  rw [outside_erase]
  constructor
  · intro heq
    refine Bool.not_eq_false _ |>.mp fun houtside => ?_
    have hmem : file ∈ disk.outside := ⟨hfile, houtside⟩
    rw [← heq] at hmem
    exact hmem.2 rfl
  · intro hinside
    ext other
    refine ⟨fun h => h.1, fun h => ⟨h, fun hsame => ?_⟩⟩
    rw [hsame] at h
    exact absurd (hinside.symm.trans h.2) (by decide)

/-- Pruning stays inside exactly when it leaves the files outside. -/
theorem staysInside_iff_outside {before after : HostDisk host} (hwithin : after.Within before) :
    StaysInside before after ↔ after.outside = before.outside := by
  constructor
  · intro hstays
    ext file
    refine ⟨fun h => ⟨hwithin.mem h.1, h.2⟩, fun h => ⟨?_, h.2⟩⟩
    by_contra hgone
    exact absurd ((hstays file h.1 hgone).symm.trans h.2) (by decide)
  · intro heq file hfile hgone
    refine Bool.not_eq_false _ |>.mp fun houtside => hgone ?_
    have hmem : file ∈ before.outside := ⟨hfile, houtside⟩
    rw [← heq] at hmem
    exact hmem.1

end HostDisk

namespace PruneRun

/-- A file that would be removed with a record is inside. -/
def CascadeInside (s : PruneRun host) (record : CacheRecord) : Prop :=
  ∀ file object, s.disk.fileAt record.path = some file →
    cascadeFile (s.disk.erase file) s.st record = some object → host.inside object = true

/-- A step removes no file outside with a record. -/
def Contained (limit : ℕ) (s : PruneRun host) : PruneStep → Prop
  | .drop record => s.CascadeInside record
  | .shrink record => s.total ≤ limit ∨ s.CascadeInside record
  | _ => True

/-- Removing a record leaves no more files outside, and leaves those there are exactly when the file that goes
with it is inside. -/
theorem Dropped.outside {codec : RecordCodec} {disk : HostDisk host} {s t : PruneRun host} {record : CacheRecord}
    (hwithin : s.disk.Within disk) (hmay : ∃ file bytes, RecordAt codec disk record file bytes)
    (hdropped : Dropped s record t) :
    t.disk.outside ≤ s.disk.outside ∧ (t.disk.outside = s.disk.outside ↔ s.CascadeInside record) := by
  obtain ⟨listed, bytes, hrecord⟩ := hmay
  have hrecordFile : ∀ file, s.disk.fileAt record.path = some file →
      (s.disk.erase file).outside = s.disk.outside := fun file hfile =>
    (HostDisk.outside_erase_eq_iff (HostDisk.fileAt_eq_some_iff.mp hfile).2).mpr
      (inside_of_below (hrecord.of_fileAt hwithin hfile).below)
  cases hdropped with
  | gone hfile =>
    refine ⟨le_rfl, iff_of_true rfl fun file object hsome => ?_⟩
    cases hfile.symm.trans hsome
  | alone hfile hcascade =>
    refine ⟨HostDisk.outside_erase_le _ _, iff_of_true (hrecordFile _ hfile) fun file' object hfile' hsome => ?_⟩
    obtain rfl := Option.some.inj (hfile.symm.trans hfile')
    cases hcascade.symm.trans hsome
  | @cascaded file object bytes' hfile hcascade hbytes =>
    have hobject : object ∈ (s.disk.erase file).files := AList.lookup_isSome.mp (Option.isSome_of_eq_some hbytes)
    have hiff := HostDisk.outside_erase_eq_iff hobject
    rw [hrecordFile file hfile] at hiff
    refine ⟨(HostDisk.outside_erase_le _ _).trans (HostDisk.outside_erase_le _ _), hiff.trans ⟨?_, ?_⟩⟩
    · intro hinside file' object' hfile' hcascade'
      obtain rfl := Option.some.inj (hfile.symm.trans hfile')
      obtain rfl := Option.some.inj (hcascade.symm.trans hcascade')
      exact hinside
    · intro hcontained
      exact hcontained file object hfile hcascade

variable (order : WalkOrder host) (codec : RecordCodec)

/-- A step leaves no more files outside, and leaves those there are exactly when it is contained. -/
theorem step_outside (now ageSecs limit : ℕ) {disk : HostDisk host} {s : PruneRun host}
    (hwithin : s.disk.Within disk) {e : PruneStep} (hmay : May codec disk e) :
    (s.step order codec now ageSecs limit e).disk.outside ≤ s.disk.outside ∧
      ((s.step order codec now ageSecs limit e).disk.outside = s.disk.outside ↔ s.Contained limit e) := by
  have hsame : ∀ {t : PruneRun host}, t.disk.outside = s.disk.outside → t.disk.outside ≤ s.disk.outside ∧
      (t.disk.outside = s.disk.outside ↔ True) := fun h => ⟨le_of_eq h, iff_of_true h trivial⟩
  have htaken : ∀ {dir path file bytes}, (∃ listed ∈ disk.files, host.below dir listed = some path) →
      s.Takes path file bytes → (s.disk.erase file).outside = s.disk.outside := by
    intro dir path file bytes hlisted htakes
    obtain ⟨listed, hmem, hbelow⟩ := hlisted
    obtain rfl := hwithin.eq_of_below hmem hbelow htakes.found
    exact (HostDisk.outside_erase_eq_iff (HostDisk.fileAt_eq_some_iff.mp htakes.found).2).mpr (inside_of_below hbelow)
  cases e with
  | drop record => exact (dropped_dropRecord order record s).outside hwithin hmay
  | sweep path =>
    refine hsame ?_
    rcases sweepFile_cases order now ageSecs path s with ⟨_, hnothing⟩ | ⟨file, bytes, htakes, _, htake⟩
    · rw [step, hnothing]
    · rw [step, htake]
      exact htaken hmay htakes
  | cleanup path =>
    refine hsame ?_
    rcases cleanupFile_cases order now ageSecs path s with hnothing | ⟨file, bytes, htakes, _, htake⟩
    · rw [step, hnothing]
    · rw [step, htake]
      exact htaken hmay htakes
  | recount => exact hsame rfl
  | shrink record =>
    rw [step, Contained]
    split
    · rename_i hle
      exact ⟨le_rfl, iff_of_true rfl (Or.inl hle)⟩
    · rename_i hgt
      rw [or_iff_right hgt]
      exact (dropped_dropRecord order record s).outside hwithin hmay
  | evict path =>
    refine hsame ?_
    rw [step]
    split
    · rfl
    · rcases evictFile_cases path s with ⟨_, hnothing⟩ | ⟨file, bytes, htakes, htake⟩
      · rw [hnothing]
      · rw [htake]
        exact htaken hmay htakes

/-- Pruning alone removes files of the two directories only, exactly when no record is removed together with a
file outside. -/
theorem staysInside_iff (now : ℕ) (olderThan maxSize : Option ℕ) (disk : HostDisk host) :
    StaysInside disk ((prune codec now olderThan maxSize).run (HostDisk.perform order) disk).2 ↔
      (Machine.ofStep (step order codec now (olderThan.getD 0) (maxSize.getD (2 ^ 64 - 1)))).Along
        (Contained (maxSize.getD (2 ^ 64 - 1))) (start order codec olderThan disk)
        (pruneSteps order codec now olderThan maxSize disk) := by
  have hstart : (start order codec olderThan disk).disk.Within disk := .refl disk
  obtain ⟨hwithin, _, hiff⟩ := Machine.foldl_eq_iff_along (fun s : PruneRun host => s.disk.outside)
    (Contained (maxSize.getD (2 ^ 64 - 1))) (fun s => s.disk.Within disk) (May codec disk)
    (fun s e hwithin hmay =>
      ⟨(step_within order codec now (olderThan.getD 0) (maxSize.getD (2 ^ 64 - 1)) s e).trans hwithin,
        step_outside order codec now (olderThan.getD 0) (maxSize.getD (2 ^ 64 - 1)) hwithin hmay⟩)
    hstart (may_pruneSteps order codec now olderThan maxSize disk)
  rw [run_prune]
  exact (HostDisk.staysInside_iff_outside hwithin).trans hiff

/-! ## A hash that leads outside -/

/-- A record whose hash goes up from the objects. -/
def escapingRecords : JsonCodec.Table FingerprintRecord where
  known :=
    [(⟨"v1", 0, some "../secret", some "a"⟩,
      "\x7b\"fingerprint\":\"v1\",\"stored_at\":0,\"artifact_hash\":\"../secret\",\"key\":\"a\"\x7d")]
  texts_nodup := by decide +kernel
  nonzero := by decide +kernel

/-- The record, and the file next to the objects. -/
def escapingDisk : HostDisk flatHost :=
  .ofFiles (AList.insert ["cache", "metadata", "fingerprints", "a.json"]
    ((JsonCodec.ofTable escapingRecords).toVec ⟨"v1", 0, some "../secret", some "a"⟩)
      (AList.insert ["cache", "secret"] (utf8Bytes "data") ∅)) (by decide +kernel)

/-- Making room removes the file outside together with the record. -/
theorem not_staysInside_parent :
    ¬ StaysInside escapingDisk ((prune (.ofTable escapingRecords) 10000 none (some 0)).run
      (HostDisk.perform (.kept flatHost)) escapingDisk).2 := by
  intro hstays
  have hinside := hstays ["cache", "secret"] (by decide +kernel) (by decide +kernel)
  revert hinside
  decide +kernel

end PruneRun

end Forge.Cache
