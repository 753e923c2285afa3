import Forge.Cache.DiskStats
import Forge.Cache.Dangling

/-!
# Making room

To make room, pruning removes records, the oldest first, each with the object that no other record
refers to, and then any objects. It stops as soon as the bytes it counts are few enough, so it removes a
prefix of the records by age. It counts all files below the objects and takes records first: without the
last record it could have had room after removing objects only.
-/

namespace Forge.Cache

open Forge.Common

variable {host : Host} {codec : RecordCodec}

/-- A record that was there, and is not. -/
structure Evicted (codec : RecordCodec) (before after : HostDisk host) (record : CacheRecord) : Prop where
  there : ∃ file bytes, RecordAt codec before record file bytes
  gone : ¬ ∃ file bytes, RecordAt codec after record file bytes

/-- A record that was removed, as late as any other. -/
structure LastEvicted (codec : RecordCodec) (before after : HostDisk host) (last : CacheRecord) : Prop where
  evicted : Evicted codec before after last
  newest : ∀ record, Evicted codec before after record → record.storedAt ≤ last.storedAt

/-- Objects are gone to which records referred, and none does. All others are there. -/
def OrphansGone (codec : RecordCodec) (before middle : HostDisk host) : Prop :=
  ∀ file path, file ∈ before.files → host.below .objects file = some path →
    (file ∉ middle.files ↔
      ∃ hash, file = host.objectFile hash ∧ 0 < before.refs codec hash ∧ middle.refs codec hash = 0)

/-- The files as they are when all other records are removed that are removed, with their objects, but not this
one, and no other object. -/
structure WithLast (codec : RecordCodec) (before middle after : HostDisk host) (last : CacheRecord) : Prop where
  within : middle.Within before
  records : ∀ record file bytes, RecordAt codec before record file bytes →
    (file ∈ middle.files ↔ record = last ∨ file ∈ after.files)
  objects : OrphansGone codec before middle

/-- What is left is small enough, no record is removed that is newer than one that is left, and with the last
record that was removed, the records and the files below the objects would be too large. -/
structure MakesRoom (order : WalkOrder host) (codec : RecordCodec) (limit : ℕ) (before after : HostDisk host) : Prop where
  effective : ((diskStats codec).run (HostDisk.perform order) after).1.totalBytes ≤ limit
  ordered : ∀ record, Evicted codec before after record → ∀ kept file bytes, RecordAt codec after kept file bytes →
    record.storedAt ≤ kept.storedAt
  minimal : (∃ record, Evicted codec before after record) →
    ∃ last middle, LastEvicted codec before after last ∧ WithLast codec before middle after last ∧
      limit < middle.used codec

namespace HostDisk

/-- A sum of zeros. -/
theorem total_eq_zero {weight : HostPath → Bytes → ℕ} {disk : HostDisk host}
    (hzero : ∀ file bytes, disk.files.lookup file = some bytes → weight file bytes = 0) : disk.total weight = 0 := by
  refine List.sum_eq_zero fun value hvalue => ?_
  obtain ⟨file, hfile, rfl⟩ := List.mem_map.mp hvalue
  obtain ⟨bytes, hbytes⟩ := Option.isSome_iff_exists.mp (AList.lookup_isSome.mpr (AList.mem_keys.mpr hfile))
  rw [hbytes, Option.elim_some, hzero file bytes hbytes]

/-- Removing a record takes its size off the bytes. -/
theorem used_erase_record {disk : HostDisk host} {record : CacheRecord} {file : HostPath} {bytes : Bytes}
    (hrecord : RecordAt codec disk record file bytes) :
    (disk.erase file).used codec + record.size = disk.used codec := by
  have htotal := total_erase (fun file bytes => (host.recordIn codec file bytes).elim 0 CacheRecord.size +
    (host.below .objects file).elim 0 fun _ => bytes.length) hrecord.holds
  have hobject : host.below .objects file = none := by
    rw [Option.eq_none_iff_forall_ne_some]
    intro path hpath
    cases (below_fingerprints_of_objects hpath).symm.trans hrecord.below
  rwa [hrecord.recordIn, hobject, Option.elim_some, Option.elim_none, Nat.add_zero] at htotal

/-- Removing a file of the objects takes its size off the bytes. -/
theorem used_erase_object (codec : RecordCodec) {disk : HostDisk host} {file : HostPath} {path : CachePath} {bytes : Bytes}
    (hbytes : disk.files.lookup file = some bytes) (hbelow : host.below .objects file = some path) :
    (disk.erase file).used codec + bytes.length = disk.used codec := by
  have htotal := total_erase (fun file bytes => (host.recordIn codec file bytes).elim 0 CacheRecord.size +
    (host.below .objects file).elim 0 fun _ => bytes.length) hbytes
  rwa [recordIn_of_objects hbelow, hbelow, Option.elim_some, Option.elim_none, Nat.zero_add] at htotal

/-- No record is listed twice. -/
theorem records_nodup (order : WalkOrder host) (disk : HostDisk host) : ((disk.view order).records codec).Nodup := by
  have hentries : (order.entries disk .fingerprints).Nodup :=
    (order.perm disk .fingerprints).nodup_iff.mpr (disk.listing_nodup .fingerprints)
  rw [DiskView.records, List.Nodup, List.pairwise_filterMap]
  refine hentries.imp fun hne record hrecord other hother hsame => hne ?_
  subst hsame
  rw [DiskView.recordIn_eq] at hrecord hother
  obtain ⟨_, _, hread⟩ := Option.bind_eq_some_iff.mp hrecord
  obtain ⟨_, _, hread'⟩ := Option.bind_eq_some_iff.mp hother
  exact (recordOf_eq_some hread).2.1.symm.trans (recordOf_eq_some hread').2.1

end HostDisk

/-- A file that has a record is one. -/
theorem recordAt_of_recordIn {disk : HostDisk host} {record : CacheRecord} {file : HostPath} {bytes : Bytes}
    (hbytes : disk.files.lookup file = some bytes) (hrecord : host.recordIn codec file bytes = some record) :
    RecordAt codec disk record file bytes := by
  rw [Host.recordIn] at hrecord
  obtain ⟨path, hbelow, hread⟩ := Option.bind_eq_some_iff.mp hrecord
  obtain ⟨_, rfl, _⟩ := recordOf_eq_some hread
  exact ⟨hbelow, hbytes, hread⟩

/-- A record is there as long as its file is. -/
theorem RecordAt.mem_iff {disk disk' : HostDisk host} {record : CacheRecord} {file : HostPath} {bytes : Bytes}
    (hrecord : RecordAt codec disk record file bytes) (hwithin : disk'.Within disk) :
    file ∈ disk'.files ↔ RecordAt codec disk' record file bytes := by
  refine ⟨fun hfile => ?_, fun h => AList.lookup_isSome.mp (Option.isSome_of_eq_some h.holds)⟩
  obtain ⟨bytes', hbytes⟩ := Option.isSome_iff_exists.mp (AList.lookup_isSome.mpr hfile)
  obtain rfl : bytes' = bytes := Option.some.inj ((hwithin _ _ hbytes).symm.trans hrecord.holds)
  exact ⟨hrecord.below, hbytes, hrecord.read⟩

namespace PruneRun

/-- The paths that were removed lead to nothing. -/
def RemovedGone (s : PruneRun host) : Prop := ∀ path ∈ s.st.removed, s.disk.fileAt path = none

/-- What is known while room is made: the counts and the bytes are exact, and the objects are those of the records. -/
structure Tracked (codec : RecordCodec) (disk : HostDisk host) (s : PruneRun host) : Prop where
  within : s.disk.Within disk
  exact : s.Exact codec
  total : s.total = s.disk.used codec
  removed : s.RemovedGone
  objects : OrphansGone codec disk s.disk

/-- The object of the last record that is counted for it is gone after removing the record. -/
theorem Dropped.object_gone {s t : PruneRun host} {record : CacheRecord} {file : HostPath} {hash : String}
    (hhash : record.artifactHash = some hash)
    (hcount : (s.st.refCounts.lookup hash).getD 0 ≤ 1) (hremoved : s.RemovedGone)
    (hfile : s.disk.fileAt record.path = some file) (hdropped : Dropped s record t) :
    t.disk.fileAt (objectPath hash) = none := by
  by_cases hpath : objectPath hash ∈ s.st.removed
  · exact hdropped.within.fileAt_eq_none (hremoved _ hpath)
  · have hcascade : cascadeFile (s.disk.erase file) s.st record = (s.disk.erase file).fileAt (objectPath hash) := by
      rw [cascadeFile, hhash, Option.bind_some, if_pos ⟨hcount, hpath⟩]
    cases hdropped with
    | gone hnone => cases hnone.symm.trans hfile
    | @alone file' hfile' hnone =>
      obtain rfl := Option.some.inj (hfile.symm.trans hfile')
      exact hcascade.symm.trans hnone
    | @cascaded file' object bytes hfile' hsome =>
      obtain rfl := Option.some.inj (hfile.symm.trans hfile')
      rw [HostDisk.fileAt_erase, ← hcascade, hsome, Option.filter_some, if_neg (by simp)]

/-- Removing a record marks only what is gone as removed. -/
theorem Dropped.removedGone {s t : PruneRun host} {record : CacheRecord} (hremoved : s.RemovedGone)
    (hdropped : Dropped s record t) : t.RemovedGone := by
  have hstill : ∀ path ∈ s.st.removed, t.disk.fileAt path = none := fun path hpath =>
    hdropped.within.fileAt_eq_none (hremoved path hpath)
  have hboth : ∀ {file} objects, s.disk.fileAt record.path = some file →
      ∀ path ∈ (s.st.dropped record objects).removed, t.disk.fileAt path = none := by
    intro file objects hfile path hpath
    rw [PruneState.dropped] at hpath
    cases hhash : record.artifactHash with
    | none =>
      rw [hhash] at hpath
      exact hstill path hpath
    | some hash =>
      rw [hhash] at hpath
      dsimp only at hpath
      split at hpath
      · rename_i hcount
        rcases Finset.mem_insert.mp hpath with rfl | hpath
        · exact hdropped.object_gone hhash hcount hremoved hfile
        · exact hstill path hpath
      · exact hstill path hpath
  cases hdropped with
  | gone => exact hremoved
  | alone hfile => exact hboth 0 hfile
  | cascaded hfile => exact hboth 1 hfile

/-- Removing a record takes off the total what it takes off the bytes. -/
theorem Dropped.total_eq {s t : PruneRun host} {record : CacheRecord} {disk : HostDisk host}
    (hwithin : s.disk.Within disk) (hmay : ∃ file bytes, RecordAt codec disk record file bytes)
    (hhex : ∀ hash, record.artifactHash = some hash → IsHexHash hash) (htotal : s.total = s.disk.used codec)
    (hdropped : Dropped s record t) : t.total = t.disk.used codec := by
  obtain ⟨listed, bytes, hrecord⟩ := hmay
  cases hdropped with
  | gone => exact htotal
  | alone hfile =>
    have hused := HostDisk.used_erase_record (hrecord.of_fileAt hwithin hfile)
    dsimp only
    omega
  | cascaded hfile hcascade hbytes =>
    have hused := HostDisk.used_erase_record (hrecord.of_fileAt hwithin hfile)
    obtain ⟨hash, _, _, _, rfl⟩ := cascadeFile_hex hhex hcascade
    have hobject := HostDisk.used_erase_object codec hbytes (below_objectFile hash)
    dsimp only
    omega

/-- Removing a record that is there takes it off the numbers, also when its object goes with it. -/
theorem Dropped.refs_eq {s t : PruneRun host} {record : CacheRecord} {disk : HostDisk host} {file : HostPath}
    (hwithin : s.disk.Within disk) (hmay : ∃ file bytes, RecordAt codec disk record file bytes)
    (hhex : ∀ hash, record.artifactHash = some hash → IsHexHash hash) (hfile : s.disk.fileAt record.path = some file)
    (hdropped : Dropped s record t) (hash : String) :
    t.disk.refs codec hash + (if record.artifactHash = some hash then 1 else 0) = s.disk.refs codec hash := by
  obtain ⟨listed, bytes, hrecord⟩ := hmay
  cases hdropped with
  | gone hnone => cases hnone.symm.trans hfile
  | alone hfile' => exact (hrecord.of_fileAt hwithin hfile').refs_erase hash
  | cascaded hfile' hcascade hbytes =>
    obtain ⟨other, _, _, _, rfl⟩ := cascadeFile_hex hhex hcascade
    rw [HostDisk.refs_erase_of_none hbytes (recordIn_of_objects (below_objectFile other) _)]
    exact (hrecord.of_fileAt hwithin hfile').refs_erase hash

/-- A file of the objects that goes when a record is removed is its object, and no other record is counted for it. -/
theorem Dropped.eq_objectFile {s t : PruneRun host} {record : CacheRecord} {disk : HostDisk host} {file : HostPath}
    {path : CachePath} (hwithin : s.disk.Within disk) (hmay : ∃ file bytes, RecordAt codec disk record file bytes)
    (hhex : ∀ hash, record.artifactHash = some hash → IsHexHash hash) (hbelow : host.below .objects file = some path)
    (hbefore : file ∈ s.disk.files) (hgone : file ∉ t.disk.files) (hdropped : Dropped s record t) :
    ∃ hash, file = host.objectFile hash ∧ record.artifactHash = some hash ∧
      (s.st.refCounts.lookup hash).getD 0 ≤ 1 := by
  have hrecordFile : ∀ {recordFile}, s.disk.fileAt record.path = some recordFile → file ≠ recordFile := by
    intro recordFile hfile
    obtain ⟨listed, bytes, hrecord⟩ := hmay
    rintro rfl
    cases (below_fingerprints_of_objects hbelow).symm.trans (hrecord.of_fileAt hwithin hfile).below
  cases hdropped with
  | gone => exact absurd hbefore hgone
  | alone hfile => exact absurd (AList.mem_erase.mpr ⟨hrecordFile hfile, hbefore⟩) hgone
  | cascaded hfile hcascade =>
    obtain ⟨hash, hhash, hcount, _, rfl⟩ := cascadeFile_hex hhex hcascade
    refine ⟨hash, ?_, hhash, hcount⟩
    by_contra hother
    exact hgone (AList.mem_erase.mpr ⟨hother, AList.mem_erase.mpr ⟨hrecordFile hfile, hbefore⟩⟩)

/-- Removing a record keeps the objects those of the records. -/
theorem Dropped.orphansGone {s t : PruneRun host} {record : CacheRecord} {disk : HostDisk host}
    (hmay : ∃ file bytes, RecordAt codec disk record file bytes)
    (hhex : ∀ hash, record.artifactHash = some hash → IsHexHash hash) (htracked : s.Tracked codec disk)
    (hdropped : Dropped s record t) : OrphansGone codec disk t.disk := by
  cases hfile : s.disk.fileAt record.path with
  | none =>
    cases hdropped with
    | gone => exact htracked.objects
    | alone hsome => cases hfile.symm.trans hsome
    | cascaded hsome => cases hfile.symm.trans hsome
  | some recordFile =>
    have hrefs := hdropped.refs_eq htracked.within hmay hhex hfile
    intro file path hmem hbelow
    constructor
    · intro hgone
      by_cases hbefore : file ∈ s.disk.files
      · -- Only the object of this record can have gone now.
        obtain ⟨hash, rfl, hhash, hcount⟩ := hdropped.eq_objectFile htracked.within hmay hhex hbelow hbefore hgone
        obtain ⟨listed, bytes, hrecord⟩ := hmay
        have hlast := hrefs hash
        rw [if_pos hhash, ← htracked.exact hash] at hlast
        exact ⟨hash, rfl, hrecord.refs_pos hhash, by omega⟩
      · obtain ⟨hash, hsame, hpos, hzero⟩ := (htracked.objects file path hmem hbelow).mp hbefore
        exact ⟨hash, hsame, hpos, Nat.eq_zero_of_le_zero ((Nat.le_add_right _ _).trans_eq ((hrefs hash).trans hzero))⟩
    · rintro ⟨hash, rfl, hpos, hzero⟩ hstill
      by_cases hbefore : s.disk.refs codec hash = 0
      · exact (htracked.objects _ path hmem hbelow).mpr ⟨hash, rfl, hpos, hbefore⟩ (hdropped.within.mem hstill)
      · -- This was the last record of the object.
        have hlast := hrefs hash
        rw [hzero, Nat.zero_add] at hlast
        have hhash : record.artifactHash = some hash := by
          by_contra hother
          rw [if_neg hother] at hlast
          exact hbefore hlast.symm
        rw [if_pos hhash] at hlast
        have hcount : (s.st.refCounts.lookup hash).getD 0 ≤ 1 := by
          rw [htracked.exact hash, ← hlast]
        have hnone := hdropped.object_gone hhash hcount htracked.removed hfile
        cases hnone.symm.trans ((hhex hash hhash).fileAt_eq_some_iff.mpr ⟨rfl, hstill⟩)

/-- Removing a record leaves the others. -/
theorem Dropped.recordAt_iff {s t : PruneRun host} {record : CacheRecord} {disk : HostDisk host}
    (hwithin : s.disk.Within disk) (hmay : ∃ file bytes, RecordAt codec disk record file bytes)
    (hhex : ∀ hash, record.artifactHash = some hash → IsHexHash hash) (hdropped : Dropped s record t)
    (other : CacheRecord) (file : HostPath) (bytes : Bytes) :
    RecordAt codec t.disk other file bytes ↔ RecordAt codec s.disk other file bytes ∧ other ≠ record := by
  constructor
  · intro hother
    refine ⟨hother.of_within hdropped.within, ?_⟩
    rintro rfl
    have hmem := AList.lookup_isSome.mp (Option.isSome_of_eq_some hother.holds)
    cases hdropped.fileAt_eq_none.symm.trans (HostDisk.fileAt_of_below hmem hother.below)
  · rintro ⟨hother, hne⟩
    have hkeeps : ∀ {recordFile}, s.disk.fileAt record.path = some recordFile →
        (s.disk.erase recordFile).files.lookup file = some bytes := by
      intro recordFile hfile
      obtain ⟨listed, bytes', hrecord⟩ := hmay
      have hat := hrecord.of_fileAt hwithin hfile
      refine (AList.lookup_erase_ne fun hsame => hne ?_).trans hother.holds
      subst hsame
      obtain rfl := Option.some.inj (hother.holds.symm.trans hat.holds)
      exact Option.some.inj (hother.recordIn.symm.trans hat.recordIn)
    cases hdropped with
    | gone => exact hother
    | alone hfile => exact ⟨hother.below, hkeeps hfile, hother.read⟩
    | cascaded hfile hcascade =>
      obtain ⟨hash, _, _, _, rfl⟩ := cascadeFile_hex hhex hcascade
      exact ⟨hother.below, (AList.lookup_erase_ne (ne_objectFile hother.below hash).symm).trans (hkeeps hfile),
        hother.read⟩

/-! ## Removing records -/

variable (order : WalkOrder host)

/-- What is known while room is made stays known. -/
theorem Tracked.dropRecord {disk : HostDisk host} (hhex : HexHashes codec disk) {s : PruneRun host}
    (htracked : s.Tracked codec disk) {record : CacheRecord} (hmay : ∃ file bytes, RecordAt codec disk record file bytes) :
    (s.dropRecord order record).Tracked codec disk := by
  have hdropped := dropped_dropRecord order record s
  have hrecordHex := hhex.ofRecord hmay
  exact ⟨hdropped.within.trans htracked.within, hdropped.exact htracked.within hmay hrecordHex htracked.exact,
    hdropped.total_eq htracked.within hmay hrecordHex htracked.total, hdropped.removedGone htracked.removed,
    hdropped.orphansGone hmay hrecordHex htracked⟩

/-- After removing records, exactly the others are there. -/
theorem Tracked.dropAll {disk : HostDisk host} (hhex : HexHashes codec disk) {s : PruneRun host}
    (htracked : s.Tracked codec disk) {found : List CacheRecord}
    (hmay : ∀ record ∈ found, ∃ file bytes, RecordAt codec disk record file bytes) :
    (s.dropAll order found).Tracked codec disk ∧ ∀ record file bytes,
      RecordAt codec (s.dropAll order found).disk record file bytes ↔
        RecordAt codec s.disk record file bytes ∧ record ∉ found := by
  induction found generalizing s with
  | nil => exact ⟨htracked, fun _ _ _ => (and_iff_left List.not_mem_nil).symm⟩
  | cons record found ih =>
    have hrecord := hmay record List.mem_cons_self
    obtain ⟨hend, hothers⟩ := ih (htracked.dropRecord order hhex hrecord) fun other hother =>
      hmay other (List.mem_cons_of_mem _ hother)
    refine ⟨hend, fun other file bytes => (hothers other file bytes).trans ?_⟩
    rw [(dropped_dropRecord order record s).recordAt_iff htracked.within hrecord (hhex.ofRecord hrecord), List.mem_cons, not_or,
      and_assoc]

variable (codec) (now ageSecs limit : ℕ)

/-! ## Removing objects -/

/-- What is known while objects are removed: the bytes are exact, and all records are there. -/
structure Evicting (codec : RecordCodec) (start s : PruneRun host) : Prop where
  within : s.disk.Within start.disk
  total : s.total = s.disk.used codec
  removed : s.RemovedGone
  records : ∀ record file bytes, RecordAt codec start.disk record file bytes → RecordAt codec s.disk record file bytes

variable {codec}

/-- Removing an object takes off the total what it takes off the bytes, and leaves the records. -/
theorem Evicting.step {disk : HostDisk host} {start s : PruneRun host} (hstart : start.disk.Within disk)
    (hevicting : Evicting codec start s) {path : CachePath}
    (hlisted : ∃ listed ∈ disk.files, host.below .objects listed = some path) :
    Evicting codec start (s.step order codec now ageSecs limit (.evict path)) ∧
      ((s.step order codec now ageSecs limit (.evict path)).total ≤ limit ∨
        (s.step order codec now ageSecs limit (.evict path)).disk.fileAt path = none) := by
  rw [PruneRun.step]
  split
  · rename_i hle
    exact ⟨hevicting, Or.inl hle⟩
  rcases evictFile_cases path s with ⟨hnone, hsame⟩ | ⟨file, bytes, htakes, htake⟩
  · rw [hsame]
    refine ⟨hevicting, Or.inr ?_⟩
    by_cases hremoved : path ∈ s.st.removed
    · exact hevicting.removed path hremoved
    · rw [Option.eq_none_iff_forall_ne_some]
      intro file hfile
      obtain ⟨bytes, hbytes⟩ := HostDisk.exists_bytes hfile
      exact hnone file bytes ⟨hremoved, hfile, hbytes⟩
  · rw [htake]
    obtain ⟨listed, hmem, hbelow⟩ := hlisted
    obtain rfl := (hevicting.within.trans hstart).eq_of_below hmem hbelow htakes.found
    have hgone : (s.disk.erase file).fileAt path = none := by
      rw [HostDisk.fileAt_erase, htakes.found, Option.filter_some, if_neg (by simp)]
    refine ⟨⟨(s.disk.within_erase file).trans hevicting.within, ?_, ?_, ?_⟩, Or.inr hgone⟩
    · have hused := HostDisk.used_erase_object codec htakes.holds hbelow
      have htotal := hevicting.total
      dsimp only [take]
      omega
    · intro other hother
      rcases Finset.mem_insert.mp hother with rfl | hother
      · exact hgone
      · exact (s.disk.within_erase file).fileAt_eq_none (hevicting.removed other hother)
    · intro record recordFile bytes' hrecord
      have hat := hevicting.records record recordFile bytes' hrecord
      refine ⟨hat.below, (AList.lookup_erase_ne fun hsame => ?_).trans hat.holds, hat.read⟩
      subst hsame
      cases (below_fingerprints_of_objects hbelow).symm.trans hat.below

/-- After removing objects the rest is small enough, or all of them are gone. -/
theorem Evicting.run {disk : HostDisk host} {start s : PruneRun host} (hstart : start.disk.Within disk)
    (hevicting : Evicting codec start s) {paths : List CachePath}
    (hlisted : ∀ path ∈ paths, ∃ listed ∈ disk.files, host.below .objects listed = some path) :
    Evicting codec start (s.run order codec now ageSecs limit (paths.map .evict)) ∧
      ((s.run order codec now ageSecs limit (paths.map .evict)).total ≤ limit ∨
        ∀ path ∈ paths, (s.run order codec now ageSecs limit (paths.map .evict)).disk.fileAt path = none) := by
  induction paths generalizing s with
  | nil => exact ⟨hevicting, Or.inr fun _ h => absurd h List.not_mem_nil⟩
  | cons path paths ih =>
    obtain ⟨hnext, hpath⟩ := hevicting.step order now ageSecs limit hstart (hlisted path List.mem_cons_self)
    obtain ⟨hend, hrest⟩ := ih hnext fun other hother => hlisted other (List.mem_cons_of_mem _ hother)
    refine ⟨hend, ?_⟩
    rcases hrest with hle | hgone
    · exact Or.inl hle
    rcases hpath with hle | hnone
    · left
      rw [PruneRun.run, List.map_cons, List.foldl_cons]
      exact (congrArg PruneRun.total (run_evict_of_total_le order codec now ageSecs limit hle paths)).trans_le hle
    · refine Or.inr fun other hother => ?_
      rcases List.mem_cons.mp hother with rfl | hother
      · have hwithin := run_within order codec now ageSecs limit (s.step order codec now ageSecs limit (.evict other))
          (paths.map .evict)
        exact hwithin.fileAt_eq_none hnone
      · exact hgone other hother

/-! ## Making room -/

/-- When room is made, everything is known. -/
theorem tracked_recount (disk : HostDisk host) :
    ((start order codec none disk).recount order codec).Tracked codec disk := by
  refine ⟨.refl disk, exact_recount order _, ?_, fun path hpath => absurd hpath (Finset.notMem_empty path),
    fun file path hfile _ => ⟨fun h => absurd hfile h, ?_⟩⟩
  · have hperm : ((disk.view order).oldestObjects.filter fun path => decide (path ∉ (∅ : Finset CachePath))).Perm
        ((order.entries disk .objects).filter fun _ => true) := by
      refine (List.Perm.of_eq (List.filter_congr fun path _ => ?_)).trans ((disk.view order).oldestObjects_perm.filter _)
      exact decide_eq_true (Finset.notMem_empty path)
    have hused : disk.used codec = (((disk.view order).records codec).map CacheRecord.size).sum +
        (((order.entries disk .objects).filter fun _ => true).map (disk.view order).sizeOf).sum := by
      rw [HostDisk.used, HostDisk.total_add, ← HostDisk.sum_records order, HostDisk.sum_entries]
      rfl
    refine Eq.trans ?_ hused.symm
    exact congrArg (_ + ·) (hperm.map _).sum_eq
  · rintro ⟨hash, _, hpos, hzero⟩
    exact absurd hzero (Nat.ne_of_gt hpos)

/-- What making room did: the records from the front are gone and the others there, all of them or until the rest
was small enough, and each while it was too large. -/
structure Shortened (order : WalkOrder host) (codec : RecordCodec) (limit : ℕ) (disk : HostDisk host)
    (first rest : List CacheRecord) (s : PruneRun host) : Prop where
  listed : ∀ record, record ∈ first ++ rest ↔ ∃ file bytes, RecordAt codec disk record file bytes
  nodup : (first ++ rest).Nodup
  sorted : (first ++ rest).Pairwise fun record other => record.storedAt ≤ other.storedAt
  within : s.disk.Within disk
  total : s.total = s.disk.used codec
  records : ∀ record file bytes, RecordAt codec s.disk record file bytes ↔
    RecordAt codec disk record file bytes ∧ record ∉ first
  done : s.total ≤ limit ∨ rest = [] ∧ ∀ path ∈ (disk.view order).oldestObjects, s.disk.fileAt path = none
  tooLarge : ∀ others last, first = others ++ [last] →
    limit < (((start order codec none disk).recount order codec).dropAll order others).total

/-- Pruning to a size removes records from the front. -/
theorem exists_shortened {disk : HostDisk host} (hhex : HexHashes codec disk) :
    ∃ first rest, Shortened order codec limit disk first rest (pruned order codec now none (some limit) disk) := by
  obtain ⟨found, hfound⟩ : ∃ found, found = sortByKey (fun record : CacheRecord => (record.storedAt.toNat : ℤ))
      ((disk.view order).records codec) := ⟨_, rfl⟩
  have hmem : ∀ record, record ∈ found ↔ ∃ file bytes, RecordAt codec disk record file bytes := by
    intro record
    rw [hfound, (sortByKey_perm _ _).mem_iff, HostDisk.mem_records_iff]
  have hnodup : found.Nodup := by
    rw [hfound]
    exact (sortByKey_perm _ _).nodup_iff.mpr (HostDisk.records_nodup order disk)
  have hsorted : found.Pairwise fun record other => record.storedAt ≤ other.storedAt := by
    rw [hfound]
    refine (sortByKey_sorted _ _).imp fun hle => ?_
    exact UInt64.le_iff_toNat_le.mpr (Int.ofNat_le.mp hle)
  obtain ⟨first, rest, rfl, hrun, hend, hwhile⟩ := run_shrinks_eq order codec now 0 limit found
    ((start order codec none disk).recount order codec)
  obtain ⟨shrunken, hshrunken⟩ : ∃ shrunken, shrunken = ((start order codec none disk).recount order codec).dropAll order first :=
    ⟨_, rfl⟩
  obtain ⟨htracked, hrecords⟩ := (tracked_recount order disk).dropAll order hhex fun record hrecord =>
    (hmem record).mp (List.mem_append_left rest hrecord)
  rw [← hshrunken] at hrun hend htracked hrecords
  have hpruned : pruned order codec now none (some limit) disk =
      shrunken.run order codec now 0 limit ((disk.view order).oldestObjects.map .evict) := by
    rw [pruned_eq_shrunk, ← hrun, hfound]
    rfl
  have hstart : Evicting codec shrunken shrunken := ⟨.refl shrunken.disk, htracked.total, htracked.removed, fun _ _ _ => id⟩
  obtain ⟨hevicting, hobjects⟩ := hstart.run order now 0 limit htracked.within fun path hpath =>
    (HostDisk.mem_oldestObjects_iff order path).mp hpath
  rw [← hpruned] at hevicting hobjects
  refine ⟨first, rest, hmem, hnodup, hsorted, hevicting.within.trans htracked.within, hevicting.total,
    fun record file bytes => ⟨fun h => (hrecords record file bytes).mp (h.of_within hevicting.within),
      fun h => hevicting.records record file bytes ((hrecords record file bytes).mpr h)⟩, ?_, hwhile⟩
  rcases hobjects with hle | hgone
  · exact Or.inl hle
  rcases hend with rfl | hle
  · exact Or.inr ⟨rfl, hgone⟩
  · rw [hpruned, run_evict_of_total_le order codec now 0 limit hle]
    exact Or.inl hle

namespace Shortened

variable {order limit} {disk : HostDisk host} {first rest : List CacheRecord} {s : PruneRun host}

/-- The records that were removed are those from the front. -/
theorem evicted_iff_mem (h : Shortened order codec limit disk first rest s) (record : CacheRecord) :
    Evicted codec disk s.disk record ↔ record ∈ first := by
  constructor
  · intro hevicted
    obtain ⟨file, bytes, hat⟩ := hevicted.there
    by_contra hother
    exact hevicted.gone ⟨file, bytes, (h.records record file bytes).mpr ⟨hat, hother⟩⟩
  · intro hrecord
    refine ⟨(h.listed record).mp (List.mem_append_left rest hrecord), fun hthere => ?_⟩
    obtain ⟨file, bytes, hat⟩ := hthere
    exact ((h.records record file bytes).mp hat).2 hrecord

/-- What is left is small enough. -/
theorem total_le (h : Shortened order codec limit disk first rest s) : s.total ≤ limit := by
  rcases h.done with hle | ⟨rfl, hgone⟩
  · exact hle
  -- Nothing is left.
  rw [h.total, HostDisk.used, HostDisk.total_eq_zero]
  · exact Nat.zero_le _
  intro file bytes hbytes
  have hfile := AList.lookup_isSome.mp (Option.isSome_of_eq_some hbytes)
  have hrecord : host.recordIn codec file bytes = none := by
    rw [Option.eq_none_iff_forall_ne_some]
    intro record hsome
    have hat := (h.records record file bytes).mp (recordAt_of_recordIn hbytes hsome)
    have hfirst : record ∈ first ++ [] := (h.listed record).mpr ⟨file, bytes, hat.1⟩
    exact hat.2 (List.append_nil first ▸ hfirst)
  have hobject : host.below .objects file = none := by
    rw [Option.eq_none_iff_forall_ne_some]
    intro path hpath
    have hnone := hgone path ((HostDisk.mem_oldestObjects_iff order path).mpr ⟨file, h.within.mem hfile, hpath⟩)
    cases hnone.symm.trans (HostDisk.fileAt_of_below hfile hpath)
  rw [hrecord, hobject, Option.elim_none, Option.elim_none]

/-- No record that was removed is newer than one that is left. -/
theorem storedAt_le (h : Shortened order codec limit disk first rest s) {record kept : CacheRecord}
    (hrecord : Evicted codec disk s.disk record) {file : HostPath} {bytes : Bytes}
    (hkept : RecordAt codec s.disk kept file bytes) : record.storedAt ≤ kept.storedAt := by
  obtain ⟨hbefore, hother⟩ := (h.records kept file bytes).mp hkept
  have hlisted := List.mem_append.mp ((h.listed kept).mpr ⟨file, bytes, hbefore⟩)
  exact (List.pairwise_append.mp h.sorted).2.2 record ((h.evicted_iff_mem record).mp hrecord) kept
    (hlisted.resolve_left hother)

/-- The last record that was removed is not older than the others, and without it the rest was too large. -/
theorem exists_last (h : Shortened order codec limit disk first rest s) (hhex : HexHashes codec disk)
    (hsome : ∃ record, Evicted codec disk s.disk record) :
    ∃ last middle, LastEvicted codec disk s.disk last ∧ WithLast codec disk middle s.disk last ∧
      limit < middle.used codec := by
  obtain ⟨record, hrecord⟩ := hsome
  have hne : first ≠ [] := List.ne_nil_of_mem ((h.evicted_iff_mem record).mp hrecord)
  obtain ⟨others, last, rfl⟩ := (List.eq_nil_or_concat' first).resolve_left hne
  have hself : last ∈ [last] := List.mem_singleton.mpr rfl
  obtain ⟨htracked, hothers⟩ := (tracked_recount order disk).dropAll order hhex fun record hrecord =>
    (h.listed record).mp (List.mem_append_left rest (List.mem_append_left _ hrecord))
  change ∀ record file bytes, _ ↔ RecordAt codec disk record file bytes ∧ record ∉ others at hothers
  have hlast : last ∉ others := fun hmem =>
    (List.nodup_append.mp (List.nodup_append.mp h.nodup).1).2.2 last hmem last hself rfl
  refine ⟨last, (((start order codec none disk).recount order codec).dropAll order others).disk,
    ⟨(h.evicted_iff_mem last).mpr (List.mem_append_right _ hself), fun other hother => ?_⟩,
    ⟨htracked.within, fun other file bytes hat => ?_, htracked.objects⟩, ?_⟩
  · rcases List.mem_append.mp ((h.evicted_iff_mem other).mp hother) with hother | hother
    · exact (List.pairwise_append.mp (List.pairwise_append.mp h.sorted).1).2.2 other hother last hself
    · obtain rfl := List.mem_singleton.mp hother
      exact UInt64.le_refl _
  · rw [hat.mem_iff htracked.within, hat.mem_iff h.within, hothers, h.records, List.mem_append, List.mem_singleton,
      and_iff_right hat, and_iff_right hat]
    constructor
    · intro hother
      by_cases hsame : other = last
      · exact Or.inl hsame
      · exact Or.inr fun hmem => hmem.elim hother hsame
    · rintro (rfl | hother)
      · exact hlast
      · exact fun hmem => hother (Or.inl hmem)
  · rw [← htracked.total]
    exact h.tooLarge others last rfl

end Shortened

/-- Pruning alone to a size makes room. -/
theorem makesRoom {disk : HostDisk host} (hhex : HexHashes codec disk) :
    MakesRoom order codec limit disk ((prune codec now none (some limit)).run (HostDisk.perform order) disk).2 := by
  obtain ⟨first, rest, hshortened⟩ := exists_shortened order now limit hhex
  rw [run_prune]
  exact ⟨(HostDisk.totalBytes_le_used order _).trans (hshortened.total.symm.trans_le hshortened.total_le),
    fun _ hrecord _ _ _ hkept => hshortened.storedAt_le hrecord hkept, hshortened.exists_last hhex⟩

/-- There is room for two bytes after pruning, also next to a record that is not listed. -/
theorem makesRoom_unlisted :
    MakesRoom (.kept flatHost) (.ofTable unlistedRecords) 2 unlistedDisk
      ((prune (.ofTable unlistedRecords) 3600 none (some 2)).run (HostDisk.perform (.kept flatHost)) unlistedDisk).2 :=
  makesRoom (.kept flatHost) 3600 2 hexHashes_unlistedDisk

/-! ## Objects without records -/

/-- The bytes of the object of a record, if it is gone. -/
def goneBytes (before after : HostDisk host) (record : CacheRecord) : ℕ :=
  record.artifactHash.elim 0 fun hash => if host.objectFile hash ∈ after.files then 0
    else (before.files.lookup (host.objectFile hash)).elim 0 List.length

/-- With the last record that was removed, and its object, what is left would be too large. -/
def LeavesNoMore (order : WalkOrder host) (codec : RecordCodec) (limit : ℕ) (before after : HostDisk host) : Prop :=
  (∃ record, Evicted codec before after record) → ∃ last, LastEvicted codec before after last ∧
    limit < ((diskStats codec).run (HostDisk.perform order) after).1.totalBytes + (last.size + goneBytes before after last)

/-- A record is evicted when it is listed before and not after. -/
theorem evicted_iff {before after : HostDisk host} {record : CacheRecord} :
    Evicted codec before after record ↔
      record ∈ (before.view order).records codec ∧ record ∉ (after.view order).records codec := by
  rw [HostDisk.mem_records_iff, HostDisk.mem_records_iff]
  exact ⟨fun h => ⟨h.there, h.gone⟩, fun h => ⟨h.1, h.2⟩⟩

/-- Removing the only record was too much when it is small enough with what is left. -/
theorem not_leavesNoMore_of_single {before after : HostDisk host} (record : CacheRecord)
    (hbefore : (before.view order).records codec = [record]) (hafter : (after.view order).records codec = [])
    (hsmall : ((diskStats codec).run (HostDisk.perform order) after).1.totalBytes +
      (record.size + goneBytes before after record) ≤ limit) : ¬ LeavesNoMore order codec limit before after := by
  intro hleaves
  have hevicted : ∀ other, Evicted codec before after other ↔ other = record := by
    intro other
    rw [evicted_iff order, hbefore, hafter, List.mem_singleton]
    exact and_iff_left List.not_mem_nil
  obtain ⟨last, hlast, hlarge⟩ := hleaves ⟨record, (hevicted record).mpr rfl⟩
  obtain rfl := (hevicted last).mp hlast.evicted
  exact absurd hsmall (Nat.not_le_of_lt hlarge)

/-- A record without an object, and another file below the objects. -/
def roomFiles (name : String) : Files HostPath :=
  AList.insert ["cache", "metadata", "fingerprints", "a.json"]
    ((JsonCodec.ofTable sampleRecords).toVec ⟨"v1", 0, none, some "a"⟩)
    (AList.insert ["cache", "objects", name] (List.replicate 100 255) ∅)

/-- The record and an object without records. -/
def orphanDisk : HostDisk flatHost := .ofFiles (roomFiles "blob") (by decide +kernel)

/-- The record and a temporary file. -/
def tmpDisk : HostDisk flatHost := .ofFiles (roomFiles "blob.7.0.tmp") (by decide +kernel)

/-- The record alone would not be too large, but it is removed before the object without records, and also when
what is too large is a temporary file that the statistics do not count. -/
theorem not_leavesNoMore_orphan :
    (HexHashes (.ofTable sampleRecords) orphanDisk ∧
      ¬ LeavesNoMore (.kept flatHost) (.ofTable sampleRecords) 80 orphanDisk
        ((prune (.ofTable sampleRecords) 3600 none (some 80)).run (HostDisk.perform (.kept flatHost)) orphanDisk).2) ∧
    HexHashes (.ofTable sampleRecords) tmpDisk ∧
      ((diskStats (.ofTable sampleRecords)).run (HostDisk.perform (.kept flatHost)) tmpDisk).1.totalBytes ≤ 80 ∧
      ¬ LeavesNoMore (.kept flatHost) (.ofTable sampleRecords) 80 tmpDisk
        ((prune (.ofTable sampleRecords) 3600 none (some 80)).run (HostDisk.perform (.kept flatHost)) tmpDisk).2 := by
  refine ⟨⟨hexHashes_of_files (by decide +kernel), ?_⟩, hexHashes_of_files (by decide +kernel), by decide +kernel, ?_⟩
  · exact not_leavesNoMore_of_single (.kept flatHost) 80
      ⟨"a", "v1", 0, ⟨.fingerprints, "a.json"⟩, 65, none⟩ (by decide +kernel) (by decide +kernel)
      (by decide +kernel)
  · exact not_leavesNoMore_of_single (.kept flatHost) 80
      ⟨"a", "v1", 0, ⟨.fingerprints, "a.json"⟩, 65, none⟩ (by decide +kernel) (by decide +kernel)
      (by decide +kernel)

end PruneRun

end Forge.Cache
