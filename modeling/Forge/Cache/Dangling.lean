import Forge.Cache.RefCounts
import Forge.Cache.Enumeration

/-!
# Records that lost their object

An object is removed with its last record, when no record is counted for it, or when no record is left.
So a record that is listed keeps its object. The record of the empty key is not listed, and nothing is
counted for it: it keeps its object exactly when no step takes it.
-/

namespace Forge.Cache

open Forge.Common

variable {host : Host}

/-- A record that is there has its object as before, if there was one. -/
def NoDangling (codec : RecordCodec) (before after : HostDisk host) : Prop :=
  ∀ path hash bytes, Refers codec after path hash → before.contents (objectPath hash) = some bytes →
    after.contents (objectPath hash) = some bytes

variable {codec : RecordCodec}

/-- The path of a hash has the contents of its object. -/
theorem IsHexHash.contents_eq {hash : String} (hhex : IsHexHash hash) (disk : HostDisk host) :
    disk.contents (objectPath hash) = disk.files.lookup (host.objectFile hash) := by
  rw [HostDisk.contents]
  by_cases hmem : host.objectFile hash ∈ disk.files
  · rw [hhex.fileAt_eq_some_iff.mpr ⟨rfl, hmem⟩, Option.bind_some]
  · have hnone : disk.fileAt (objectPath hash) = none := by
      rw [Option.eq_none_iff_forall_ne_some]
      intro file hfile
      obtain ⟨rfl, hfile⟩ := hhex.fileAt_eq_some_iff.mp hfile
      exact hmem hfile
    rw [hnone, Option.bind_none, AList.lookup_eq_none.mpr hmem]

/-- A file that is listed as a record is found as one. -/
theorem Refers.recordAt {disk : HostDisk host} {path : CachePath} {hash : String} (hrefers : Refers codec disk path hash)
    (hjson : extension path.name = some "json") :
    ∃ record file bytes, RecordAt codec disk record file bytes ∧ record.artifactHash = some hash := by
  obtain ⟨file, bytes, found, hbelow, hbytes, hfound, hhash⟩ := hrefers.reads
  obtain ⟨record, hread, hsame⟩ : ∃ record, recordOf codec path bytes = some record ∧
      record.artifactHash = found.artifactHash := by
    rw [recordOf, if_pos hjson, hfound, Option.map_some]
    exact ⟨_, rfl, rfl⟩
  obtain ⟨_, rfl, _⟩ := recordOf_eq_some hread
  exact ⟨record, file, bytes, ⟨hbelow, hbytes, hread⟩, hsame.trans hhash⟩

/-- A record refers to its object. -/
theorem RecordAt.refs_pos {disk : HostDisk host} {record : CacheRecord} {file : HostPath} {bytes : Bytes} {hash : String}
    (hrecord : RecordAt codec disk record file bytes) (hhash : record.artifactHash = some hash) :
    0 < disk.refs codec hash := by
  rw [← hrecord.refs_erase hash, if_pos hhash]
  exact Nat.succ_pos _

/-- A file next to the records is no object. -/
theorem ne_objectFile {file : HostPath} {path : CachePath} (hbelow : host.below .fingerprints file = some path)
    (hash : String) : host.objectFile hash ≠ file := by
  rintro rfl
  cases (below_fingerprints_of_objects (below_objectFile hash)).symm.trans hbelow

/-- A file of the objects is that of a hash when it has its path. -/
theorem IsHexHash.objectFile_eq_iff {hash : String} (hhex : IsHexHash hash) {disk : HostDisk host} {file : HostPath}
    {path : CachePath} (hfile : file ∈ disk.files) (hbelow : host.below .objects file = some path) :
    host.objectFile hash = file ↔ path = objectPath hash := by
  constructor
  · rintro rfl
    exact Option.some.inj (hbelow.symm.trans (below_objectFile hash))
  · rintro rfl
    exact (hhex.fileAt_eq_some_iff.mp (HostDisk.fileAt_of_below hfile hbelow)).1.symm

namespace PruneRun

/-! ## Records that are listed -/

/-- The objects to which records refer are there, if they were. -/
def Kept (codec : RecordCodec) (disk : HostDisk host) (s : PruneRun host) : Prop :=
  ∀ hash, IsHexHash hash → 0 < s.disk.refs codec hash → host.objectFile hash ∈ disk.files →
    host.objectFile hash ∈ s.disk.files

/-- Removing a record keeps the objects of the others. -/
theorem Dropped.kept {s t : PruneRun host} {record : CacheRecord} {disk : HostDisk host}
    (hwithin : s.disk.Within disk) (hmay : ∃ file bytes, RecordAt codec disk record file bytes)
    (hhex : ∀ hash, record.artifactHash = some hash → IsHexHash hash) (hexact : s.Exact codec)
    (hkept : s.Kept codec disk) (hdropped : Dropped s record t) : t.Kept codec disk := by
  obtain ⟨listed, bytes, hrecord⟩ := hmay
  have hrecordFile : ∀ {file}, s.disk.fileAt record.path = some file → ∀ hash, IsHexHash hash →
      0 < (s.disk.erase file).refs codec hash → host.objectFile hash ∈ disk.files →
      host.objectFile hash ∈ (s.disk.erase file).files := by
    intro file hfile hash hhash hrefs hobject
    have hat := hrecord.of_fileAt hwithin hfile
    have hpos : 0 < s.disk.refs codec hash := by
      rw [← hat.refs_erase hash]
      exact Nat.lt_of_lt_of_le hrefs (Nat.le_add_right _ _)
    exact AList.mem_erase.mpr ⟨ne_objectFile hat.below hash, hkept hash hhash hpos hobject⟩
  cases hdropped with
  | gone => exact hkept
  | alone hfile => exact hrecordFile hfile
  | @cascaded file object bytes' hfile hcascade hbytes =>
    obtain ⟨other, hother, hcount, _, rfl⟩ := cascadeFile_hex hhex hcascade
    intro hash hhash hrefs hobject
    rw [HostDisk.refs_erase_of_none hbytes (recordIn_of_objects (below_objectFile other) _)] at hrefs
    refine AList.mem_erase.mpr ⟨fun hsame => ?_, hrecordFile hfile hash hhash hrefs hobject⟩
    -- The removed record was the last one that is counted for the object.
    obtain rfl := objectFile_inj.mp hsame
    have hlast := (hrecord.of_fileAt hwithin hfile).refs_erase hash
    rw [if_pos hother, ← hexact hash] at hlast
    omega

/-- Taking a file keeps the objects of records, unless it is one. -/
theorem Kept.take {disk : HostDisk host} {s : PruneRun host} (hkept : s.Kept codec disk) {path : CachePath}
    {file : HostPath} {bytes : Bytes} (htakes : s.Takes path file bytes) (hnone : host.recordIn codec file bytes = none)
    (hfree : ∀ hash, IsHexHash hash → host.objectFile hash = file → s.disk.refs codec hash = 0) (objects size : ℕ) :
    (s.take path file objects size).Kept codec disk := by
  intro hash hhash hrefs hobject
  have hsame : (s.take path file objects size).disk.refs codec hash = s.disk.refs codec hash :=
    HostDisk.refs_erase_of_none htakes.holds hnone hash
  rw [hsame] at hrefs
  exact AList.mem_erase.mpr ⟨fun h => absurd (hfree hash hhash h) (Nat.ne_of_gt hrefs), hkept hash hhash hrefs hobject⟩

variable (order : WalkOrder host) (codec) (now ageSecs limit : ℕ)

/-- A state that was reached from a disk, with exact counts, and the objects of all records. -/
structure Sound (codec : RecordCodec) (disk : HostDisk host) (s : PruneRun host) : Prop where
  within : s.disk.Within disk
  exact : s.Exact codec
  kept : s.Kept codec disk

variable {codec}

/-- Removing a record keeps this. -/
theorem Sound.dropRecord {disk : HostDisk host} (hhex : HexHashes codec disk) {s : PruneRun host}
    (hsound : s.Sound codec disk) {record : CacheRecord} (hmay : ∃ file bytes, RecordAt codec disk record file bytes) :
    (s.dropRecord order record).Sound codec disk := by
  have hdropped := dropped_dropRecord order record s
  have hrecordHex := hhex.ofRecord hmay
  exact ⟨hdropped.within.trans hsound.within, hdropped.exact hsound.within hmay hrecordHex hsound.exact,
    hdropped.kept hsound.within hmay hrecordHex hsound.exact hsound.kept⟩

/-- Steps that evict no object keep this. -/
theorem Sound.step {disk : HostDisk host} (hhex : HexHashes codec disk) {s : PruneRun host}
    (hsound : s.Sound codec disk) {e : PruneStep} (hmay : May codec disk e) (hevict : ∀ path, e ≠ .evict path) :
    (s.step order codec now ageSecs limit e).Sound codec disk := by
  refine ⟨(step_within order codec now ageSecs limit s e).trans hsound.within,
    step_exact order now ageSecs limit hhex hsound.within hmay hsound.exact, ?_⟩
  cases e with
  | drop record => exact (hsound.dropRecord order hhex hmay).kept
  | sweep path =>
    rcases sweepFile_cases order now ageSecs path s with ⟨_, hsame⟩ | ⟨file, bytes, htakes, hsweepable, htake⟩
    · rw [PruneRun.step, hsame]
      exact hsound.kept
    · rw [PruneRun.step, htake]
      refine hsound.kept.take htakes (recordIn_of_takes hsound.within hmay (Or.inl rfl) htakes) (fun hash hhash hobject => ?_) _ _
      obtain ⟨listed, hmem, hbelow⟩ := hmay
      obtain rfl := hsound.within.eq_of_below hmem hbelow htakes.found
      obtain rfl := (hhash.objectFile_eq_iff hmem hbelow).mp hobject
      have hnone := hsweepable.free.resolve_left (by rw [hhash.not_isTmp]; decide)
      rw [hhash.fileName_eq] at hnone
      rw [← hsound.exact hash, hnone, Option.getD_none]
  | cleanup path =>
    rcases cleanupFile_cases order now ageSecs path s with hsame | ⟨file, bytes, htakes, htmp, htake⟩
    · rw [PruneRun.step, hsame]
      exact hsound.kept
    · rw [PruneRun.step, htake]
      refine hsound.kept.take htakes (recordIn_of_takes hsound.within hmay (Or.inr htmp) htakes) (fun hash _ hobject => ?_) _ _
      obtain ⟨listed, hmem, hbelow⟩ := hmay
      obtain rfl := hsound.within.eq_of_below hmem hbelow htakes.found
      exact absurd hobject (ne_objectFile hbelow hash)
  | recount => exact hsound.kept
  | shrink record =>
    rw [PruneRun.step]
    split
    · exact hsound.kept
    · exact (hsound.dropRecord order hhex hmay).kept
  | evict path => exact absurd rfl (hevict path)

/-- Runs that evict no object keep this. -/
theorem Sound.run {disk : HostDisk host} (hhex : HexHashes codec disk) {s : PruneRun host} (hsound : s.Sound codec disk)
    {steps : List PruneStep} (hmay : ∀ e ∈ steps, May codec disk e) (hevict : ∀ e ∈ steps, ∀ path, e ≠ .evict path) :
    (s.run order codec now ageSecs limit steps).Sound codec disk := by
  induction steps generalizing s with
  | nil => exact hsound
  | cons e steps ih =>
    exact ih (hsound.step order now ageSecs limit hhex (hmay e List.mem_cons_self) (hevict e List.mem_cons_self))
      (fun e he => hmay e (List.mem_cons_of_mem _ he)) fun e he => hevict e (List.mem_cons_of_mem _ he)

/-- The counts are exact when the second phase removes records, and no record has lost its object. -/
theorem sound_recount {disk : HostDisk host} (hhex : HexHashes codec disk) (olderThan maxSize : Option ℕ) :
    ((aged order codec now olderThan maxSize disk).recount order codec).Sound codec disk := by
  have hstart : (start order codec olderThan disk).Kept codec disk := fun _ _ _ => id
  cases olderThan with
  | none => exact ⟨.refl disk, exact_recount order _, hstart⟩
  | some ageSecs =>
    have hsound : (start order codec (some ageSecs) disk).Sound codec disk :=
      ⟨.refl disk, fun hash => HostDisk.lookup_countRefs_records order disk hash, hstart⟩
    have haged : (aged order codec now (some ageSecs) maxSize disk).Sound codec disk := by
      refine hsound.run order now _ _ hhex
        (forall_stepsOf order now _ _ (fun phase hphase s hwithin => may_agePhases order codec now hphase hwithin) (.refl disk))
        (forall_stepsOf order now _ _ (fun phase hphase s _ e he => ?_) (.refl disk))
      rintro path rfl
      rw [agePhases, List.mem_cons, List.mem_cons, List.mem_singleton] at hphase
      rcases hphase with rfl | rfl | rfl
      · obtain ⟨_, _, h⟩ := List.mem_map.mp he
        cases h
      · obtain ⟨_, _, h⟩ := List.mem_map.mp he
        cases h
      · obtain ⟨_, _, h⟩ := List.mem_map.mp he
        cases h
    exact ⟨haged.within, exact_recount order _, haged.kept⟩

/-- A record that is listed after pruning has its object. -/
theorem objectFile_mem_of_listed {disk : HostDisk host} (hhex : HexHashes codec disk) (olderThan maxSize : Option ℕ)
    {record : CacheRecord} {file : HostPath} {bytes : Bytes} {hash : String}
    (hrecord : RecordAt codec (pruned order codec now olderThan maxSize disk).disk record file bytes)
    (hhash : record.artifactHash = some hash) (hobject : host.objectFile hash ∈ disk.files) :
    host.objectFile hash ∈ (pruned order codec now olderThan maxSize disk).disk.files := by
  have hsound := sound_recount order now hhex olderThan maxSize
  obtain ⟨found, hfound⟩ : ∃ found, found = sortByKey (fun record : CacheRecord => (record.storedAt.toNat : ℤ))
      (((aged order codec now olderThan maxSize disk).disk.view order).records codec) := ⟨_, rfl⟩
  have hmem : ∀ record, record ∈ found ↔ ∃ file bytes,
      RecordAt codec (aged order codec now olderThan maxSize disk).disk record file bytes := by
    intro record
    rw [hfound, (sortByKey_perm _ _).mem_iff, HostDisk.mem_records_iff]
  have hshrunk : (shrunk order codec now olderThan maxSize disk).Sound codec disk := by
    rw [shrunk, ← hfound]
    refine hsound.run order now _ _ hhex (fun e he => ?_) (fun e he path hevict => ?_)
    · obtain ⟨record, hrecord, rfl⟩ := List.mem_map.mp he
      obtain ⟨file, bytes, hat⟩ := (hmem record).mp hrecord
      exact ⟨file, bytes, hat.of_within hsound.within⟩
    · obtain ⟨_, _, hsame⟩ := List.mem_map.mp he
      cases hsame.trans hevict
  obtain ⟨first, rest, hsplit, hrun, hend, _⟩ := run_shrinks_eq order codec now (olderThan.getD 0)
    (maxSize.getD (2 ^ 64 - 1)) found ((aged order codec now olderThan maxSize disk).recount order codec)
  have hdrop : shrunk order codec now olderThan maxSize disk =
      ((aged order codec now olderThan maxSize disk).recount order codec).dropAll order first := by
    rw [shrunk, ← hfound, hrun]
  obtain ⟨haged, hgone⟩ := fileAt_dropAll order first ((aged order codec now olderThan maxSize disk).recount order codec)
  rw [pruned_eq_shrunk] at hrecord ⊢
  rw [← hdrop] at hend haged hgone
  rcases hend with rfl | hle
  · -- No record is left.
    have hlast := hrecord.of_within (run_within order codec now _ _ _ _)
    have hmemFirst : record ∈ first := by
      rw [← List.append_nil first, ← hsplit]
      exact (hmem record).mpr ⟨file, bytes, hlast.of_within haged⟩
    have hthere := HostDisk.fileAt_of_below (AList.lookup_isSome.mp (Option.isSome_of_eq_some hlast.holds)) hlast.below
    cases (hgone record hmemFirst).symm.trans hthere
  · -- The objects are not touched any more.
    rw [run_evict_of_total_le order codec now _ _ hle] at hrecord ⊢
    exact hshrunk.kept hash (hhex _ _ ((hrecord.of_within hshrunk.within).refers hhash)) (hrecord.refs_pos hhash) hobject

end PruneRun

/-! ## The record that is not listed -/

/-- A record is read from a file that is listed, or from that of the empty key. -/
theorem Refers.cases {disk : HostDisk host} {path : CachePath} {hash : String} (hrefers : Refers codec disk path hash) :
    extension path.name = some "json" ∨ path = recordPath "" := by
  rcases hrefers.kind with hjson | ⟨key, rfl⟩
  · exact Or.inl hjson
  · by_cases hkey : key = ""
    · exact Or.inr (congrArg recordPath hkey)
    · rw [recordPath, extension_recordName, if_neg hkey]
      exact Or.inl rfl

/-- The file of the empty key has no ending. -/
theorem extension_emptyKey : extension (recordPath "").name = none := by
  rw [recordPath, extension_recordName, if_pos rfl]

namespace HostDisk

/-- The objects to which the record of the empty key refers. -/
def linked (codec : RecordCodec) (disk : HostDisk host) : Set String :=
  {hash | Refers codec disk (recordPath "") hash ∧ host.objectFile hash ∈ disk.files}

/-- A record refers to its object before other files were removed. -/
theorem Within.refers {disk disk' : HostDisk host} (hwithin : disk'.Within disk) {path : CachePath} {hash : String}
    (hrefers : Refers codec disk' path hash) : Refers codec disk path hash := by
  obtain ⟨file, bytes, found, hbelow, hbytes, hfound⟩ := hrefers.reads
  exact ⟨hrefers.kind, file, bytes, found, hbelow, hwithin file bytes hbytes, hfound⟩

/-- Removing another file leaves the record of the empty key. -/
theorem refers_erase_iff {disk : HostDisk host} {file : HostPath}
    (hother : host.below .fingerprints file ≠ some (recordPath "")) {hash : String} :
    Refers codec (disk.erase file) (recordPath "") hash ↔ Refers codec disk (recordPath "") hash := by
  refine ⟨(disk.within_erase file).refers, fun hrefers => ?_⟩
  obtain ⟨listed, bytes, found, hbelow, hbytes, hfound⟩ := hrefers.reads
  have hne : listed ≠ file := fun h => hother (h ▸ hbelow)
  exact ⟨hrefers.kind, listed, bytes, found, hbelow, (AList.lookup_erase_ne hne).trans hbytes, hfound⟩

/-- Removing another file leaves its object exactly when the file is not the object. -/
theorem linked_erase (codec : RecordCodec) {disk : HostDisk host} {file : HostPath} (hfile : file ∈ disk.files)
    (hother : host.below .fingerprints file ≠ some (recordPath "")) :
    (disk.erase file).linked codec ≤ disk.linked codec ∧
      ((disk.erase file).linked codec = disk.linked codec ↔
        ∀ hash, Refers codec disk (recordPath "") hash → host.objectFile hash ≠ file) := by
  have hmem : ∀ hash, hash ∈ (disk.erase file).linked codec ↔ hash ∈ disk.linked codec ∧ host.objectFile hash ≠ file := by
    intro hash
    rw [linked, linked, Set.mem_ofPred_eq, Set.mem_ofPred_eq, refers_erase_iff hother, erase, AList.mem_erase,
      and_assoc, and_comm (a := host.objectFile hash ≠ file)]
  refine ⟨fun hash h => ((hmem hash).mp h).1, ?_, ?_⟩
  · intro heq hash hrefers hsame
    have hlinked : hash ∈ disk.linked codec := ⟨hrefers, hsame ▸ hfile⟩
    rw [← heq] at hlinked
    exact ((hmem hash).mp hlinked).2 hsame
  · intro hspares
    ext hash
    exact (hmem hash).trans (and_iff_left_of_imp fun h => hspares hash h.1)

end HostDisk

namespace PruneRun

variable (order : WalkOrder host) (codec) (now ageSecs limit : ℕ)

/-- Removing a record does not take the object of the record of the empty key. -/
def CascadeSpares (s : PruneRun host) (record : CacheRecord) : Prop :=
  ∀ file object, s.disk.fileAt record.path = some file → cascadeFile (s.disk.erase file) s.st record = some object →
    ∀ hash, record.artifactHash = some hash → ¬ Refers codec s.disk (recordPath "") hash

/-- A step does not take the object of the record of the empty key. -/
def Spares (s : PruneRun host) : PruneStep → Prop
  | .drop record => s.CascadeSpares codec record
  | .shrink record => s.total ≤ limit ∨ s.CascadeSpares codec record
  | .sweep path => Sweepable order now ageSecs s path →
      ∀ hash, Refers codec s.disk (recordPath "") hash → path ≠ objectPath hash
  | .evict path => s.total ≤ limit ∨ ∀ file bytes, s.Takes path file bytes →
      ∀ hash, Refers codec s.disk (recordPath "") hash → path ≠ objectPath hash
  | _ => True

variable {codec}

/-- Removing a record leaves the object of the record of the empty key exactly when it does not take it. -/
theorem Dropped.linked {disk : HostDisk host} {s t : PruneRun host} {record : CacheRecord}
    (hwithin : s.disk.Within disk) (hmay : ∃ file bytes, RecordAt codec disk record file bytes)
    (hhex : ∀ hash, record.artifactHash = some hash → IsHexHash hash) (hdropped : Dropped s record t) :
    (∀ hash, Refers codec s.disk (recordPath "") hash → Refers codec t.disk (recordPath "") hash) ∧
      t.disk.linked codec ≤ s.disk.linked codec ∧
      (t.disk.linked codec = s.disk.linked codec ↔ s.CascadeSpares codec record) := by
  obtain ⟨listed, bytes, hrecord⟩ := hmay
  have hrecordFile : ∀ {file}, s.disk.fileAt record.path = some file →
      host.below .fingerprints file ≠ some (recordPath "") ∧
        (s.disk.erase file).linked codec = s.disk.linked codec := by
    intro file hfile
    have hat := hrecord.of_fileAt hwithin hfile
    have hother : host.below .fingerprints file ≠ some (recordPath "") := by
      intro hsame
      rw [hat.below] at hsame
      have hjson := (recordOf_eq_some hat.read).1
      rw [Option.some.inj hsame, extension_emptyKey] at hjson
      cases hjson
    exact ⟨hother, (HostDisk.linked_erase codec (HostDisk.fileAt_eq_some_iff.mp hfile).2 hother).2.mpr
      fun hash _ => ne_objectFile hat.below hash⟩
  cases hdropped with
  | gone hfile =>
    refine ⟨fun _ => id, le_rfl, iff_of_true rfl fun file object hsome => ?_⟩
    cases hfile.symm.trans hsome
  | alone hfile hcascade =>
    obtain ⟨hother, hsame⟩ := hrecordFile hfile
    refine ⟨fun hash => (HostDisk.refers_erase_iff hother).mpr, le_of_eq hsame,
      iff_of_true hsame fun file' object hfile' hsome => ?_⟩
    obtain rfl := Option.some.inj (hfile.symm.trans hfile')
    cases hcascade.symm.trans hsome
  | @cascaded file object bytes' hfile hcascade hbytes =>
    obtain ⟨hother, hsame⟩ := hrecordFile hfile
    obtain ⟨hash, hhash, _, _, rfl⟩ := cascadeFile_hex hhex hcascade
    have hobject : host.below .fingerprints (host.objectFile hash) ≠ some (recordPath "") := by
      rw [below_fingerprints_of_objects (below_objectFile hash)]
      exact (Option.some_ne_none _).symm
    have herase := HostDisk.linked_erase codec (AList.lookup_isSome.mp (Option.isSome_of_eq_some hbytes)) hobject
    rw [hsame] at herase
    refine ⟨fun hash hrefers => (HostDisk.refers_erase_iff hobject).mpr ((HostDisk.refers_erase_iff hother).mpr hrefers),
      herase.1, herase.2.trans ⟨?_, ?_⟩⟩
    · intro hspares file' object' _ _ hash' hhash' hrefers
      obtain rfl := Option.some.inj (hhash.symm.trans hhash')
      exact hspares hash ((HostDisk.refers_erase_iff hother).mpr hrefers) rfl
    · intro hspares hash' hrefers hsame'
      obtain rfl := objectFile_inj.mp hsame'
      exact hspares file _ hfile hcascade hash' hhash ((HostDisk.refers_erase_iff hother).mp hrefers)

/-- Taking a file of the objects leaves the object of the record of the empty key exactly when it is another file. -/
theorem linked_take {disk : HostDisk host} (hhex : HexHashes codec disk) {s : PruneRun host}
    (hwithin : s.disk.Within disk) {path : CachePath} {file : HostPath} {bytes : Bytes}
    (hlisted : ∃ listed ∈ disk.files, host.below .objects listed = some path) (htakes : s.Takes path file bytes) :
    (∀ hash, Refers codec s.disk (recordPath "") hash → Refers codec (s.disk.erase file) (recordPath "") hash) ∧
      (s.disk.erase file).linked codec ≤ s.disk.linked codec ∧
      ((s.disk.erase file).linked codec = s.disk.linked codec ↔
        ∀ hash, Refers codec s.disk (recordPath "") hash → path ≠ objectPath hash) := by
  obtain ⟨listed, hmem, hbelow⟩ := hlisted
  obtain rfl := hwithin.eq_of_below hmem hbelow htakes.found
  have hother : host.below .fingerprints file ≠ some (recordPath "") := by
    rw [below_fingerprints_of_objects hbelow]
    exact (Option.some_ne_none _).symm
  obtain ⟨hle, hiff⟩ := HostDisk.linked_erase codec (HostDisk.fileAt_eq_some_iff.mp htakes.found).2 hother
  refine ⟨fun hash => (HostDisk.refers_erase_iff hother).mpr, hle, hiff.trans ?_⟩
  exact forall_congr' fun hash => forall_congr' fun hrefers =>
    not_congr ((hhex _ hash (hwithin.refers hrefers)).objectFile_eq_iff hmem hbelow)

/-- A step leaves the object of the record of the empty key exactly when it does not take it. -/
theorem step_linked {disk : HostDisk host} (hhex : HexHashes codec disk) {s : PruneRun host}
    (hwithin : s.disk.Within disk) {e : PruneStep} (hmay : May codec disk e) :
    (∀ hash, Refers codec s.disk (recordPath "") hash →
        Refers codec (s.step order codec now ageSecs limit e).disk (recordPath "") hash) ∧
      (s.step order codec now ageSecs limit e).disk.linked codec ≤ s.disk.linked codec ∧
      ((s.step order codec now ageSecs limit e).disk.linked codec = s.disk.linked codec ↔
        Spares codec order now ageSecs limit s e) := by
  cases e with
  | drop record => exact (dropped_dropRecord order record s).linked hwithin hmay (hhex.ofRecord hmay)
  | sweep path =>
    rcases sweepFile_cases order now ageSecs path s with ⟨hkeeps, hnothing⟩ | ⟨file, bytes, htakes, hsweepable, htake⟩
    · rw [step, hnothing]
      exact ⟨fun _ => id, le_rfl, iff_of_true rfl fun h => absurd h hkeeps⟩
    · rw [step, htake]
      obtain ⟨hstays, hle, hiff⟩ := linked_take hhex hwithin hmay htakes
      exact ⟨hstays, hle, hiff.trans ⟨fun h _ => h, fun h => h hsweepable⟩⟩
  | cleanup path =>
    rcases cleanupFile_cases order now ageSecs path s with hnothing | ⟨file, bytes, htakes, htmp, htake⟩
    · rw [step, hnothing]
      exact ⟨fun _ => id, le_rfl, iff_of_true rfl trivial⟩
    · rw [step, htake]
      obtain ⟨listed, hmem, hbelow⟩ := hmay
      obtain rfl := hwithin.eq_of_below hmem hbelow htakes.found
      have hextension : extension path.name = some "tmp" := of_decide_eq_true htmp
      have hother : host.below .fingerprints file ≠ some (recordPath "") := by
        intro hsame
        rw [hbelow] at hsame
        rw [Option.some.inj hsame, extension_emptyKey] at hextension
        cases hextension
      obtain ⟨hle, hiff⟩ := HostDisk.linked_erase codec (HostDisk.fileAt_eq_some_iff.mp htakes.found).2 hother
      exact ⟨fun hash => (HostDisk.refers_erase_iff hother).mpr, hle,
        iff_of_true (hiff.mpr fun hash _ => ne_objectFile hbelow hash) trivial⟩
  | recount => exact ⟨fun _ => id, le_rfl, iff_of_true rfl trivial⟩
  | shrink record =>
    rw [step, Spares]
    split
    · rename_i hle
      exact ⟨fun _ => id, le_rfl, iff_of_true rfl (Or.inl hle)⟩
    · rename_i hgt
      rw [or_iff_right hgt]
      exact (dropped_dropRecord order record s).linked hwithin hmay (hhex.ofRecord hmay)
  | evict path =>
    rw [step, Spares]
    split
    · rename_i hle
      exact ⟨fun _ => id, le_rfl, iff_of_true rfl (Or.inl hle)⟩
    · rename_i hgt
      rw [or_iff_right hgt]
      rcases evictFile_cases path s with ⟨hnone, hnothing⟩ | ⟨file, bytes, htakes, htake⟩
      · rw [hnothing]
        exact ⟨fun _ => id, le_rfl, iff_of_true rfl fun file bytes h => absurd h (hnone file bytes)⟩
      · rw [htake]
        obtain ⟨hstays, hle, hiff⟩ := linked_take hhex hwithin hmay htakes
        exact ⟨hstays, hle, hiff.trans ⟨fun h _ _ _ => h, fun h => h file bytes htakes⟩⟩

/-- Pruning alone leaves no record without its object exactly when no step takes the object of the record of the
empty key. -/
theorem noDangling_iff {disk : HostDisk host} (hhex : HexHashes codec disk) (olderThan maxSize : Option ℕ) :
    NoDangling codec disk ((prune codec now olderThan maxSize).run (HostDisk.perform order) disk).2 ↔
      (Machine.ofStep (step order codec now (olderThan.getD 0) (maxSize.getD (2 ^ 64 - 1)))).Along
        (Spares codec order now (olderThan.getD 0) (maxSize.getD (2 ^ 64 - 1))) (start order codec olderThan disk)
        (pruneSteps order codec now olderThan maxSize disk) := by
  obtain ⟨⟨hwithin, hstays⟩, hle, hiff⟩ := Machine.foldl_eq_iff_along (fun s : PruneRun host => s.disk.linked codec)
    (Spares codec order now (olderThan.getD 0) (maxSize.getD (2 ^ 64 - 1)))
    (fun s => s.disk.Within disk ∧
      ∀ hash, Refers codec disk (recordPath "") hash → Refers codec s.disk (recordPath "") hash) (May codec disk)
    (fun s e hinv hmay => by
      obtain ⟨hkeeps, hquantity⟩ := step_linked order now (olderThan.getD 0) (maxSize.getD (2 ^ 64 - 1)) hhex hinv.1 hmay
      exact ⟨⟨(step_within order codec now _ _ s e).trans hinv.1, fun hash h => hkeeps hash (hinv.2 hash h)⟩, hquantity⟩)
    (s := start order codec olderThan disk) ⟨.refl disk, fun _ => id⟩
    (may_pruneSteps order codec now olderThan maxSize disk)
  rw [run_prune, ← hiff]
  change _ ↔ (pruned order codec now olderThan maxSize disk).disk.linked codec = disk.linked codec
  change (pruned order codec now olderThan maxSize disk).disk.Within disk at hwithin
  constructor
  · intro hdangling
    refine Set.Subset.antisymm hle fun hash hlinked => ⟨hstays hash hlinked.1, ?_⟩
    have hhash := hhex _ _ hlinked.1
    obtain ⟨bytes, hbytes⟩ := Option.isSome_iff_exists.mp (AList.lookup_isSome.mpr hlinked.2)
    have hafter := hdangling _ hash bytes (hstays hash hlinked.1) ((hhash.contents_eq disk).trans hbytes)
    rw [hhash.contents_eq] at hafter
    exact AList.lookup_isSome.mp (Option.isSome_of_eq_some hafter)
  · intro heq path hash bytes hrefers hbytes
    have hbefore := hwithin.refers hrefers
    have hhash := hhex _ _ hbefore
    rw [hhash.contents_eq] at hbytes ⊢
    have hobject : host.objectFile hash ∈ disk.files := AList.lookup_isSome.mp (Option.isSome_of_eq_some hbytes)
    have hmem : host.objectFile hash ∈ (pruned order codec now olderThan maxSize disk).disk.files := by
      rcases hrefers.cases with hjson | rfl
      · obtain ⟨record, file, bytes', hrecord, hsame⟩ := hrefers.recordAt hjson
        exact objectFile_mem_of_listed order now hhex olderThan maxSize hrecord hsame hobject
      · have hlinked : hash ∈ disk.linked codec := ⟨hbefore, hobject⟩
        rw [← heq] at hlinked
        exact hlinked.2
    obtain ⟨bytes', hafter⟩ := Option.isSome_iff_exists.mp (AList.lookup_isSome.mpr hmem)
    rw [hafter, ← hbytes, hwithin _ _ hafter]

/-! ## A record of the empty key -/

/-- The hash of 64 equal digits. -/
def digitHash (c : Char) : String := String.ofList (List.replicate 64 c)

/-- A hash of equal digits has digits only. -/
theorem isHexHash_digitHash {c : Char} (hc : c.isDigit = true ∨ 'a' ≤ c ∧ c ≤ 'f' ∨ 'A' ≤ c ∧ c ≤ 'F') :
    IsHexHash (digitHash c) := by
  refine ⟨?_, fun other hother => ?_⟩
  · rw [digitHash, String.toList_ofList, List.length_replicate]
  · rw [digitHash, String.toList_ofList] at hother
    rwa [List.eq_of_mem_replicate hother]

/-- A record of the empty key. -/
def unlistedRecords : JsonCodec.Table FingerprintRecord where
  known :=
    [(⟨"v1", 0, some (digitHash 'b'), some ""⟩,
        "\x7b\"fingerprint\":\"v1\",\"stored_at\":0,\"artifact_hash\":\"" ++ digitHash 'b' ++
          "\",\"key\":\"\"\x7d")]
  texts_nodup := List.nodup_singleton _
  nonzero := by decide +kernel

/-- The record and its object. -/
def unlistedDisk : HostDisk flatHost :=
  .ofFiles (AList.insert ["cache", "metadata", "fingerprints", ".json"]
    ((JsonCodec.ofTable unlistedRecords).toVec ⟨"v1", 0, some (digitHash 'b'), some ""⟩)
    (AList.insert ["cache", "objects", digitHash 'b'] (utf8Bytes "data") ∅)) (by decide +kernel)

/-- The hash has digits only. -/
theorem hexHashes_unlistedDisk : HexHashes (.ofTable unlistedRecords) unlistedDisk := by
  have honly : ∀ file ∈ unlistedDisk.files.keys, ∀ hash ∈ (unlistedDisk.files.lookup file).bind fun bytes =>
      ((JsonCodec.ofTable unlistedRecords).fromSlice bytes).bind FingerprintRecord.artifactHash,
        hash = digitHash 'b' := by
    decide +kernel
  refine hexHashes_of_files fun file hfile hash hhash => ?_
  rw [honly file hfile hash hhash]
  exact isHexHash_digitHash (by decide)

/-- Making room leaves the record its object as long as no step takes it. -/
theorem noDangling_iff_unlisted :
    NoDangling (.ofTable unlistedRecords) unlistedDisk ((prune (.ofTable unlistedRecords) 3600 none (some 8)).run
        (HostDisk.perform (.kept flatHost)) unlistedDisk).2 ↔
      (Machine.ofStep (step (.kept flatHost) (.ofTable unlistedRecords) 3600 0 8)).Along
        (Spares (.ofTable unlistedRecords) (.kept flatHost) 3600 0 8)
        (start (.kept flatHost) (.ofTable unlistedRecords) none unlistedDisk)
        (pruneSteps (.kept flatHost) (.ofTable unlistedRecords) 3600 none (some 8) unlistedDisk) :=
  noDangling_iff (.kept flatHost) 3600 hexHashes_unlistedDisk none (some 8)

/-- Sweeping old objects removes the one to which only the record of the empty key refers. -/
theorem not_noDangling_emptyKey :
    HexHashes (.ofTable unlistedRecords) unlistedDisk ∧
      ¬ NoDangling (.ofTable unlistedRecords) unlistedDisk ((prune (.ofTable unlistedRecords) 3600 (some 3600) none).run
        (HostDisk.perform (.kept flatHost)) unlistedDisk).2 := by
  refine ⟨hexHashes_unlistedDisk, fun hdangling => ?_⟩
  have hrefers : Refers (.ofTable unlistedRecords) ((prune (.ofTable unlistedRecords) 3600 (some 3600) none).run
      (HostDisk.perform (.kept flatHost)) unlistedDisk).2 (recordPath "") (digitHash 'b') := by
    refine ⟨Or.inr ⟨"", rfl⟩, ["cache", "metadata", "fingerprints", ".json"], _, _, by decide +kernel,
      ?_, JsonCodec.fromSlice_toVec _ ⟨"v1", 0, some (digitHash 'b'), some ""⟩, rfl⟩
    decide +kernel
  have hafter := hdangling _ _ (utf8Bytes "data") hrefers (by decide +kernel)
  revert hafter
  decide +kernel

end PruneRun

end Forge.Cache
