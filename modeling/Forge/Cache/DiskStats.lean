import Forge.Cache.RefCounts
import Mathlib.Algebra.Order.BigOperators.Group.List
import Mathlib.Algebra.Order.Group.Nat

/-!
# What the cache occupies

The statistics of the cache count its records and its objects, without temporary files. Pruning counts
the bytes of all files below the objects, so its number is never the smaller one.
-/

namespace Forge.Cache

open Forge.Common

/-- What the cache occupies on disk. -/
structure CacheDiskStats where
  recordCount : ℕ
  fingerprintsBytes : ℕ
  objectCount : ℕ
  objectsBytes : ℕ
  totalBytes : ℕ
  deriving DecidableEq, Repr

/-- Count files and their bytes, as far as they are there. -/
def countObjects : List CachePath → PruneM (ℕ × ℕ)
  | [] => return (0, 0)
  | path :: paths => do
    let stat ← fileMetadata path
    let others ← countObjects paths
    match stat with
    | some stat => return (others.1 + 1, others.2 + stat.len)
    | none => return others

/-- Find out what the cache occupies. -/
def diskStats (codec : RecordCodec) : PruneM CacheDiskStats := do
  let found ← records codec
  let objects ← walkFiles .objects
  let counted ← countObjects (objects.filter fun path => !isTmp path)
  return ⟨found.length, (found.map CacheRecord.size).sum, counted.1, counted.2,
    (found.map CacheRecord.size).sum + counted.2⟩

variable {host : Host} {codec : RecordCodec}

namespace HostDisk

variable (order : WalkOrder host)

/-- The bytes of files that are listed are those of the files below the directory. -/
theorem sum_entries (disk : HostDisk host) (dir : CacheDir) (p : CachePath → Bool) :
    (((order.entries disk dir).filter p).map (disk.view order).sizeOf).sum =
      disk.total fun file bytes => (host.below dir file).elim 0 fun path => if p path then bytes.length else 0 := by
  have hperm := (((order.perm disk dir).filter p).map (disk.view order).sizeOf)
  rw [hperm.sum_eq, ← List.filterMap_eq_filter, listing, List.filterMap_filterMap, sum_map_filterMap, total]
  refine congrArg List.sum (List.map_congr_left fun file hfile => ?_)
  obtain ⟨bytes, hbytes⟩ := Option.isSome_iff_exists.mp (AList.lookup_isSome.mpr (AList.mem_keys.mpr hfile))
  rw [hbytes, Option.elim_some]
  cases hbelow : host.below dir file with
  | none => rw [Option.bind_none, Option.elim_none, Option.elim_none]
  | some path =>
    have hstat : (disk.view order).stat path = some ⟨bytes.length, host.modified file⟩ :=
      stat_of_fileAt (fileAt_of_below (AList.mem_keys.mpr hfile) hbelow) hbytes
    have hsize : (disk.view order).sizeOf path = bytes.length := by
      rw [DiskView.sizeOf, hstat, Option.map_some, Option.getD_some]
    rw [Option.bind_some, Option.elim_some]
    cases hp : p path with
    | true => rw [Option.guard_pos hp, Option.elim_some, hsize, if_pos rfl]
    | false => rw [Option.guard_eq_none_iff.mpr hp, Option.elim_none, if_neg Bool.false_ne_true]

/-- The bytes of the records and of all files below the objects. -/
def used (codec : RecordCodec) (disk : HostDisk host) : ℕ :=
  disk.total fun file bytes => (host.recordIn codec file bytes).elim 0 CacheRecord.size +
    (host.below .objects file).elim 0 fun _ => bytes.length

/-- The sum of two numbers of each file. -/
theorem total_add (first second : HostPath → Bytes → ℕ) (disk : HostDisk host) :
    (disk.total fun file bytes => first file bytes + second file bytes) = disk.total first + disk.total second := by
  rw [total, total, total, ← List.sum_map_add]
  refine congrArg List.sum (List.map_congr_left fun file _ => ?_)
  cases disk.files.lookup file with
  | none => rfl
  | some bytes => rfl

/-- A sum of smaller numbers is smaller. -/
theorem total_le {first second : HostPath → Bytes → ℕ} (hle : ∀ file bytes, first file bytes ≤ second file bytes)
    (disk : HostDisk host) : disk.total first ≤ disk.total second := by
  refine List.sum_le_sum fun file _ => ?_
  cases disk.files.lookup file with
  | none => exact le_rfl
  | some bytes => exact hle file bytes

/-- The statistics count the files that are there. -/
theorem run_countObjects (disk : HostDisk host) (paths : List CachePath) :
    ∃ count, (countObjects paths).run (perform order) disk =
      ((count, (paths.map (disk.view order).sizeOf).sum), disk) := by
  induction paths with
  | nil => exact ⟨0, rfl⟩
  | cons path paths ih =>
    obtain ⟨count, hcount⟩ := ih
    have hstat : (disk.view order).sizeOf path = ((disk.stat path).map FileStat.len).getD 0 := rfl
    rw [countObjects, Program.run_bind, PruneRun.run_fileMetadata]
    dsimp only
    rw [Program.run_bind, hcount, List.map_cons, List.sum_cons, hstat]
    cases disk.stat path with
    | none => exact ⟨count, by rw [Option.map_none, Option.getD_none, Nat.zero_add]; rfl⟩
    | some stat => exact ⟨count + 1, by rw [Option.map_some, Option.getD_some, Nat.add_comm stat.len]; rfl⟩

/-- The statistics give the bytes of the records and of the objects. -/
theorem totalBytes_diskStats (disk : HostDisk host) :
    ((diskStats codec).run (perform order) disk).1.totalBytes =
      disk.total fun file bytes => (host.recordIn codec file bytes).elim 0 CacheRecord.size +
        (host.below .objects file).elim 0 fun path => if !isTmp path then bytes.length else 0 := by
  obtain ⟨count, hcount⟩ := run_countObjects order disk ((order.entries disk .objects).filter fun path => !isTmp path)
  rw [total_add, ← sum_records order, ← sum_entries order, diskStats, Program.run_bind,
    run_records codec (disk.shows order), Program.run_bind]
  have hlist : (walkFiles .objects).run (perform order) disk = (order.entries disk .objects, disk) := rfl
  rw [hlist, Program.run_bind, hcount]
  rfl

/-- Pruning counts at least what the statistics do. -/
theorem totalBytes_le_used (disk : HostDisk host) :
    ((diskStats codec).run (perform order) disk).1.totalBytes ≤ disk.used codec := by
  rw [totalBytes_diskStats, used]
  refine total_le (fun file bytes => Nat.add_le_add_left ?_ _) disk
  cases host.below .objects file with
  | none =>
    rw [Option.elim_none, Option.elim_none]
  | some path =>
    rw [Option.elim_some, Option.elim_some]
    split
    · exact le_rfl
    · exact Nat.zero_le _

end HostDisk

end Forge.Cache
