import Forge.Cache.PruneReads
import Mathlib.Data.List.TakeWhile

/-!
# Records of all keys

The records of a cache are found by the names of their files: what does not end in `.json` is skipped.
A name that begins with its last point has no ending, and the empty key has such a name, so its record
is not found. All other keys that were stored have one record each, the one stored last.
-/

namespace Forge.Cache

open Forge.Common

/-! ## Endings of names -/

/-- What ends a name behind its last point. -/
theorem extension_append {stem ending : List Char} (hpoint : '.' ∉ ending) (hslash : '/' ∉ ending) :
    extension (String.ofList (stem ++ '.' :: ending)) =
      if stem.reverse.takeWhile (· ≠ '/') = [] then none else some (String.ofList ending) := by
  have hname : (fileName (String.ofList (stem ++ '.' :: ending))).toList.reverse =
      ending.reverse ++ '.' :: stem.reverse.takeWhile (· ≠ '/') := by
    rw [fileName, String.toList_ofList, String.toList_ofList, List.reverse_reverse, List.reverse_append,
      List.reverse_cons, List.append_assoc, List.singleton_append, List.takeWhile_append_of_pos, List.takeWhile_cons]
    · rfl
    · intro c hc
      exact decide_eq_true fun h => hslash (h ▸ List.mem_reverse.mp hc)
  have hending : ∀ c ∈ ending.reverse, decide (c ≠ '.') = true :=
    fun c hc => decide_eq_true fun h => hpoint (h ▸ List.mem_reverse.mp hc)
  rw [extension, hname, List.dropWhile_append_of_pos hending, List.takeWhile_append_of_pos hending]
  simp

/-- A written byte is no slash. -/
theorem slash_notMem_encodeByte (byte : UInt8) : '/' ∉ encodeByte byte := by
  have hall : ∀ n : Fin 256, '/' ∉ encodeByte (.ofNat n.val) := by
    decide +kernel
  have hbyte := hall ⟨byte.toNat, byte.toNat_lt⟩
  rwa [UInt8.ofNat_toNat] at hbyte

/-- An encoded key has no slash in it. -/
theorem slash_notMem_encodeKey (key : String) : '/' ∉ (encodeKey key).toList := by
  rw [encodeKey, String.toList_ofList, List.mem_flatMap]
  rintro ⟨byte, _, hslash⟩
  exact slash_notMem_encodeByte byte hslash

/-- Only the empty key has an empty name. -/
theorem encodeKey_toList_eq_nil_iff (key : String) : (encodeKey key).toList = [] ↔ key = "" := by
  constructor
  · intro hnil
    have hempty : encodeKey key = encodeKey "" := String.toList_injective (hnil.trans rfl)
    exact encodeKey_injective hempty
  · rintro rfl
    rfl

/-- The file of a key ends in `.json`, unless the key is empty. -/
theorem extension_recordName (key : String) :
    extension (recordName key) = if key = "" then none else some "json" := by
  have hending : ".json".toList = '.' :: "json".toList := by decide
  have hname : recordName key = String.ofList ((encodeKey key).toList ++ '.' :: "json".toList) := by
    rw [← hending, ← String.toList_append, String.ofList_toList, recordName]
  have hstem : (encodeKey key).toList.reverse.takeWhile (· ≠ '/') = (encodeKey key).toList.reverse :=
    List.takeWhile_eq_self_iff.mpr fun c hc => decide_eq_true fun h =>
      slash_notMem_encodeKey key (h ▸ List.mem_reverse.mp hc)
  have hnil : (encodeKey key).toList.reverse = [] ↔ key = "" :=
    List.reverse_eq_nil_iff.trans (encodeKey_toList_eq_nil_iff key)
  rw [hname, extension_append (by decide) (by decide), hstem, String.ofList_toList]
  by_cases hkey : key = ""
  · rw [if_pos hkey, if_pos (hnil.mpr hkey)]
  · rw [if_neg hkey, if_neg fun h => hkey (hnil.mp h)]

/-- A temporary file ends in `.tmp`. -/
theorem extension_tmp (path : CachePath) (process seq : ℕ) : extension (path.tmp process seq).name = some "tmp" := by
  have hending : ".tmp".toList = '.' :: "tmp".toList := by decide
  have hname : (path.tmp process seq).name =
      String.ofList ((path.name ++ "." ++ toString process ++ "." ++ toString seq).toList ++ '.' :: "tmp".toList) := by
    rw [← hending, ← String.toList_append, String.ofList_toList]
    rfl
  have hdigits : ∀ c ∈ (toString seq).toList.reverse, decide (c ≠ '/') = true := by
    intro c hc
    rw [List.mem_reverse, Nat.toString_eq_ofList_toDigits, String.toList_ofList] at hc
    have hdigit := Nat.isDigit_of_mem_toDigits (by decide) (by decide) hc
    refine decide_eq_true fun hslash => ?_
    rw [hslash] at hdigit
    exact absurd hdigit (by decide)
  have hstem : ((path.name ++ "." ++ toString process ++ "." ++ toString seq).toList.reverse.takeWhile
      (· ≠ '/')) ≠ [] := by
    rw [String.toList_append, List.reverse_append, List.takeWhile_append_of_pos hdigits, String.toList_append,
      List.reverse_append]
    exact List.append_ne_nil_of_right_ne_nil _ (List.cons_ne_nil _ _)
  rw [hname, extension_append (by decide) (by decide), if_neg hstem, String.ofList_toList]

/-! ## Stores that succeed -/

/-- A store of a record. -/
structure RecordPut where
  key : String
  fingerprint : String
  artifactHash : Option String
  now : UInt64
  deriving DecidableEq, Repr

/-- The record that is stored. -/
def RecordPut.record (put : RecordPut) : FingerprintRecord :=
  ⟨put.fingerprint, put.now, put.artifactHash, some put.key⟩

/-- The last store for a key. -/
def lastPut (puts : List RecordPut) (key : String) : Option RecordPut := puts.reverse.find? (·.key = key)

/-- A store for a key comes after others. -/
theorem lastPut_append (puts : List RecordPut) (put : RecordPut) (key : String) :
    lastPut (puts ++ [put]) key = if put.key = key then some put else lastPut puts key := by
  rw [lastPut, List.reverse_append, List.reverse_singleton, List.singleton_append, List.find?_cons]
  by_cases hkey : put.key = key
  · rw [if_pos hkey, decide_eq_true hkey]
  · rw [if_neg hkey, decide_eq_false hkey]
    rfl

/-- The last store for a key is one for this key. -/
theorem key_of_lastPut {puts : List RecordPut} {key : String} {put : RecordPut} (hlast : lastPut puts key = some put) :
    put ∈ puts ∧ put.key = key := by
  rw [lastPut] at hlast
  have hkey := List.find?_some hlast
  exact ⟨List.mem_reverse.mp (List.mem_of_find?_eq_some hlast), of_decide_eq_true hkey⟩

/-- There is a last store for each key that was stored. -/
theorem exists_lastPut {puts : List RecordPut} {put : RecordPut} (hput : put ∈ puts) :
    ∃ last, lastPut puts put.key = some last :=
  Option.isSome_iff_exists.mp (List.find?_isSome.mpr ⟨put, List.mem_reverse.mpr hput, decide_eq_true rfl⟩)

namespace LocalCache

variable (codec : RecordCodec)

/-- Stores that succeed, one after another. -/
def putAll (c : LocalCache) (puts : List RecordPut) : LocalCache :=
  puts.foldl (fun c put => (c.putWithArtifact codec put.key put.fingerprint put.artifactHash put.now none).2) c

/-- The directory has the record stored last for each key, and temporary files besides. -/
structure HoldsLast (disk : Directory) (puts : List RecordPut) : Prop where
  lookup : ∀ key, disk.lookup (fingerprintPath key) = (lastPut puts key).map fun put => codec.toVec put.record
  known : ∀ path ∈ disk, (∃ name process seq, path = .tmp name process seq) ∨ ∃ key, path = fingerprintPath key

variable {codec}

/-- A store that succeeds puts its record into place of the last one for its key. -/
theorem HoldsLast.put {c : LocalCache} {puts : List RecordPut} (hlast : HoldsLast codec c.disk puts)
    (put : RecordPut) :
    HoldsLast codec (c.putWithArtifact codec put.key put.fingerprint put.artifactHash put.now none).2.disk
      (puts ++ [put]) := by
  obtain ⟨_, _, hlookup⟩ := c.putWithArtifact_ok codec put.key put.fingerprint put.artifactHash put.now
  refine ⟨fun key => ?_, fun path hpath => ?_⟩
  · rw [hlookup, lastPut_append]
    by_cases hkey : key = put.key
    · rw [if_pos hkey, if_pos hkey.symm]
      rfl
    · rw [if_neg hkey, if_neg fun h => hkey h.symm]
      exact hlast.lookup key
  · rw [putWithArtifact, Files.rename_insert] at hpath
    dsimp only at hpath
    rw [AList.mem_insert] at hpath
    rcases hpath with hpath | hpath
    · exact Or.inr ⟨put.key, hpath⟩
    · rw [AList.mem_erase, AList.mem_insert] at hpath
      exact hlast.known path (hpath.2.resolve_left hpath.1)

/-- After stores that succeed, the directory has the last records. -/
theorem HoldsLast.putAll {c : LocalCache} {before : List RecordPut} (hlast : HoldsLast codec c.disk before)
    (puts : List RecordPut) : HoldsLast codec (c.putAll codec puts).disk (before ++ puts) := by
  induction puts generalizing c before with
  | nil =>
    rw [List.append_nil]
    exact hlast
  | cons put puts ih =>
    have hrest := ih (hlast.put put)
    rw [List.append_assoc, List.singleton_append] at hrest
    exact hrest

end LocalCache

/-! ## Walking over the directory -/

/-- The path of a file of the directory of records. -/
def RecordPath.cachePath : RecordPath → CachePath
  | .record name => ⟨.fingerprints, name⟩
  | .tmp name process seq => CachePath.tmp ⟨.fingerprints, name⟩ process seq

/-- The order in which a walk gives the files, and when they were modified. -/
structure DirectoryWalk where
  entries : Directory → List RecordPath
  perm : ∀ disk, (entries disk).Perm disk.keys
  modified : RecordPath → ℤ

/-- The file with a path. -/
def Directory.fileAt (disk : Directory) (path : CachePath) : Option RecordPath :=
  disk.keys.find? (·.cachePath = path)

/-- What an operation does in a cache without objects. -/
def Directory.perform (walk : DirectoryWalk) : (op : PruneOp) → Directory → op.Response × Directory
  | .list .fingerprints, disk => ((walk.entries disk).map RecordPath.cachePath, disk)
  | .list .objects, disk => ([], disk)
  | .read path, disk => ((Directory.fileAt disk path).bind disk.lookup, disk)
  | .stat path, disk =>
    ((Directory.fileAt disk path).bind fun file => (disk.lookup file).map fun bytes =>
      ⟨bytes.length, walk.modified file⟩, disk)
  | .remove path, disk =>
    match Directory.fileAt disk path with
    | some file => (true, disk.erase file)
    | none => (false, disk)

/-- What a walk over the directory shows. -/
def Directory.view (walk : DirectoryWalk) (disk : Directory) : DiskView where
  entries dir := match dir with
    | .fingerprints => (walk.entries disk).map RecordPath.cachePath
    | .objects => []
  contents path := (Directory.fileAt disk path).bind disk.lookup
  stat path := (Directory.fileAt disk path).bind fun file => (disk.lookup file).map fun bytes =>
    ⟨bytes.length, walk.modified file⟩

/-- The operations show this. -/
theorem Directory.shows (walk : DirectoryWalk) (disk : Directory) :
    Shows (Directory.perform walk) disk (Directory.view walk disk) := by
  refine ⟨fun dir => ?_, fun _ => rfl, fun _ => rfl⟩
  cases dir <;> rfl

/-- The path of the file of a key is no other file's. -/
theorem cachePath_eq_iff (path : RecordPath) (key : String) :
    path.cachePath = (fingerprintPath key).cachePath ↔ path = fingerprintPath key := by
  constructor
  · intro hpath
    cases path with
    | record name => exact congrArg RecordPath.record (CachePath.mk.inj hpath).2
    | tmp name process seq =>
      have hextension := congrArg (fun path => extension path.name) hpath
      rw [RecordPath.cachePath, extension_tmp] at hextension
      change _ = extension (recordName key) at hextension
      rw [extension_recordName] at hextension
      split at hextension
      · cases hextension
      · exact absurd hextension (by decide)
  · rintro rfl
    rfl

/-- The file of a key is found by its path. -/
theorem Directory.fileAt_fingerprintPath {disk : Directory} {key : String} (hfile : fingerprintPath key ∈ disk) :
    Directory.fileAt disk (fingerprintPath key).cachePath = some (fingerprintPath key) := by
  have hsome : (Directory.fileAt disk (fingerprintPath key).cachePath).isSome :=
    List.find?_isSome.mpr ⟨_, AList.mem_keys.mp hfile, decide_eq_true rfl⟩
  obtain ⟨path, hpath⟩ := Option.isSome_iff_exists.mp hsome
  rw [hpath]
  rw [Directory.fileAt] at hpath
  have hsame := List.find?_some hpath
  exact congrArg some ((cachePath_eq_iff path key).mp (of_decide_eq_true hsame))

/-- The record of a store as it is found. -/
def RecordPut.found (codec : RecordCodec) (put : RecordPut) : CacheRecord :=
  ⟨put.key, put.fingerprint, put.now, recordPath put.key, (codec.toVec put.record).length, put.artifactHash⟩

/-- What is found in a file: the record stored last for its key, unless the key is empty or the file temporary. -/
theorem recordIn_view {codec : RecordCodec} {disk : Directory} {puts : List RecordPut}
    (hlast : LocalCache.HoldsLast codec disk puts) (walk : DirectoryWalk) {path : RecordPath} (hpath : path ∈ disk)
    (found : CacheRecord) :
    (Directory.view walk disk).recordIn codec path.cachePath = some found ↔
      ∃ put, path = fingerprintPath put.key ∧ put.key ≠ "" ∧ lastPut puts put.key = some put ∧
        found = put.found codec := by
  rcases hlast.known path hpath with ⟨name, process, seq, rfl⟩ | ⟨key, rfl⟩
  · have hnone : (Directory.view walk disk).recordIn codec (RecordPath.tmp name process seq).cachePath = none := by
      rw [DiskView.recordIn, RecordPath.cachePath, extension_tmp]
      exact if_neg (by decide)
    rw [hnone]
    refine iff_of_false (fun h => by cases h) fun h => ?_
    obtain ⟨put, hput, _⟩ := h
    cases hput
  · obtain ⟨bytes, hbytes⟩ := Option.isSome_iff_exists.mp (AList.lookup_isSome.mpr hpath)
    obtain ⟨put, hput, hstored⟩ := Option.map_eq_some_iff.mp ((hlast.lookup key).symm.trans hbytes)
    obtain ⟨_, rfl⟩ := key_of_lastPut hput
    have hcontents : (Directory.view walk disk).contents (fingerprintPath put.key).cachePath =
        some (codec.toVec put.record) := by
      change (Directory.fileAt disk _).bind disk.lookup = _
      rw [Directory.fileAt_fingerprintPath hpath, Option.bind_some, hbytes, hstored]
    have hfound : (Directory.view walk disk).recordIn codec (fingerprintPath put.key).cachePath =
        if put.key = "" then none else some (put.found codec) := by
      rw [DiskView.recordIn, hcontents, show (fingerprintPath put.key).cachePath.name = recordName put.key from rfl,
        extension_recordName]
      split
      · exact if_neg (by decide)
      · rw [if_pos rfl, Option.bind_some, codec.fromSlice_toVec]
        rfl
    rw [hfound]
    constructor
    · intro h
      split at h
      · cases h
      · rename_i hkey
        exact ⟨put, rfl, hkey, hput, (Option.some.inj h).symm⟩
    · intro h
      obtain ⟨other, hother, hkey, hlast', rfl⟩ := h
      obtain rfl : other = put := by
        rw [← (fingerprintPath_inj put.key other.key).mp hother, hput] at hlast'
        exact (Option.some.inj hlast').symm
      exact if_neg hkey

/-! ## What is enumerated -/

/-- There is one record for each key that was stored, with the fingerprint stored last. -/
structure Enumerates (puts : List RecordPut) (found : List CacheRecord) : Prop where
  once : (found.map CacheRecord.key).Nodup
  last : ∀ record ∈ found, ∃ put, lastPut puts record.key = some put ∧ record.fingerprint = put.fingerprint
  all : ∀ put ∈ puts, ∃ record ∈ found, record.key = put.key

/-- The records that are enumerated. -/
def LocalCache.records (codec : RecordCodec) (walk : DirectoryWalk) (c : LocalCache) : List CacheRecord :=
  (Program.run (Directory.perform walk) (Forge.Cache.records codec) c.disk).1

/-- A record is found exactly when it is the one of the last store for its key, and this is not empty. -/
theorem LocalCache.mem_records_iff {codec : RecordCodec} {c : LocalCache} {puts : List RecordPut}
    (hlast : HoldsLast codec c.disk puts) (walk : DirectoryWalk) (found : CacheRecord) :
    found ∈ c.records codec walk ↔
      ∃ put, put.key ≠ "" ∧ lastPut puts put.key = some put ∧ found = put.found codec := by
  rw [LocalCache.records, run_records codec (Directory.shows walk c.disk), DiskView.records, List.mem_filterMap]
  constructor
  · intro h
    obtain ⟨path, hentry, hfound⟩ := h
    obtain ⟨file, hfile, rfl⟩ := List.mem_map.mp hentry
    have hmem := AList.mem_keys.mpr ((walk.perm c.disk).mem_iff.mp hfile)
    obtain ⟨put, _, hput⟩ := (recordIn_view hlast walk hmem found).mp hfound
    exact ⟨put, hput⟩
  · intro h
    obtain ⟨put, hkey, hput, rfl⟩ := h
    have hmem : fingerprintPath put.key ∈ c.disk := by
      rw [← AList.lookup_isSome, hlast.lookup, hput]
      rfl
    refine ⟨(fingerprintPath put.key).cachePath, ?_, (recordIn_view hlast walk hmem _).mpr ⟨put, rfl, hkey, hput, rfl⟩⟩
    exact List.mem_map_of_mem ((walk.perm c.disk).mem_iff.mpr (AList.mem_keys.mp hmem))

/-- No key is found twice. -/
theorem LocalCache.records_nodup {codec : RecordCodec} {c : LocalCache} {puts : List RecordPut}
    (hlast : HoldsLast codec c.disk puts) (walk : DirectoryWalk) :
    ((c.records codec walk).map CacheRecord.key).Nodup := by
  rw [LocalCache.records, run_records codec (Directory.shows walk c.disk), DiskView.records, List.Nodup,
    List.pairwise_map, List.pairwise_filterMap]
  change ((walk.entries c.disk).map RecordPath.cachePath).Pairwise _
  rw [List.pairwise_map]
  have hnodup : (walk.entries c.disk).Nodup := (walk.perm c.disk).nodup_iff.mpr c.disk.keys_nodup
  refine hnodup.imp_of_mem fun hfile hfile' hne found hfound found' hfound' hkey => hne ?_
  obtain ⟨put, hput, _, _, rfl⟩ := (recordIn_view hlast walk
    (AList.mem_keys.mpr ((walk.perm c.disk).mem_iff.mp hfile)) _).mp hfound
  obtain ⟨put', hput', _, _, rfl⟩ := (recordIn_view hlast walk
    (AList.mem_keys.mpr ((walk.perm c.disk).mem_iff.mp hfile')) _).mp hfound'
  rw [hput, hput', show put.key = put'.key from hkey]

/-- After stores that succeed, in a cache with no records and maybe temporary files, there is one record for
each key exactly when the empty key was not stored. -/
theorem LocalCache.enumerates_iff (codec : RecordCodec) (walk : DirectoryWalk) {disk : Directory}
    (hdisk : ∀ path ∈ disk, ∃ name process seq, path = .tmp name process seq) (process tmpCounter : ℕ)
    (puts : List RecordPut) :
    Enumerates puts (((new disk process tmpCounter).putAll codec puts).records codec walk) ↔
      "" ∉ puts.map RecordPut.key := by
  have hstart : HoldsLast codec (new disk process tmpCounter).disk [] := by
    refine ⟨fun key => ?_, fun path hpath => Or.inl (hdisk path hpath)⟩
    refine AList.lookup_eq_none.mpr fun hmem => ?_
    obtain ⟨name, process', seq, hpath⟩ := hdisk _ hmem
    cases hpath
  have hlast := hstart.putAll puts
  rw [List.nil_append] at hlast
  constructor
  · intro henumerates hempty
    obtain ⟨put, hput, hkey⟩ := List.mem_map.mp hempty
    obtain ⟨record, hrecord, hrecordKey⟩ := henumerates.all put hput
    obtain ⟨other, hother, _, rfl⟩ := (mem_records_iff hlast walk record).mp hrecord
    exact hother (hrecordKey.trans hkey)
  · intro hempty
    refine ⟨records_nodup hlast walk, fun record hrecord => ?_, fun put hput => ?_⟩
    · obtain ⟨put, _, hput, rfl⟩ := (mem_records_iff hlast walk record).mp hrecord
      exact ⟨put, hput, rfl⟩
    · obtain ⟨last, hlastPut⟩ := exists_lastPut hput
      obtain ⟨hmem, hkey⟩ := key_of_lastPut hlastPut
      refine ⟨last.found codec, (mem_records_iff hlast walk _).mpr ⟨last, fun h => ?_, ?_, rfl⟩, hkey⟩
      · exact hempty (List.mem_map.mpr ⟨last, hmem, h⟩)
      · rw [hkey]
        exact hlastPut

/-- The files in the order in which they are kept. -/
def keptOrder : DirectoryWalk := ⟨AList.keys, fun _ => List.Perm.refl _, fun _ => 0⟩

/-- Two keys have two records, also when one was stored twice. -/
theorem LocalCache.enumerates_iff_pair :
    Enumerates [⟨"a", "v1", none, 0⟩, ⟨"b", "v1", none, 0⟩, ⟨"a", "v2", none, 1⟩]
        (((new ∅ 1 0).putAll (.ofTable sampleRecords)
          [⟨"a", "v1", none, 0⟩, ⟨"b", "v1", none, 0⟩, ⟨"a", "v2", none, 1⟩]).records (.ofTable sampleRecords)
            keptOrder) ↔
      "" ∉ [(⟨"a", "v1", none, 0⟩ : RecordPut), ⟨"b", "v1", none, 0⟩, ⟨"a", "v2", none, 1⟩].map RecordPut.key :=
  enumerates_iff (.ofTable sampleRecords) keptOrder (fun _ hpath => absurd hpath (AList.notMem_empty _)) 1 0 _

/-- A record of the empty key as it is written. -/
def emptyKeyRecords : JsonCodec.Table FingerprintRecord where
  known := [(⟨"v1", 0, none, some ""⟩, recordText "v1" "")]
  texts_nodup := List.nodup_singleton _
  nonzero := by
    intro entry hmem
    rw [List.mem_singleton.mp hmem]
    exact recordText_head "v1" ""

/-- The record of the empty key is not found. -/
theorem LocalCache.not_enumerates_emptyKey :
    ¬ Enumerates [⟨"", "v1", none, 0⟩]
      (((new ∅ 1 0).putAll (.ofTable emptyKeyRecords) [⟨"", "v1", none, 0⟩]).records (.ofTable emptyKeyRecords)
        keptOrder) := by
  intro henumerates
  obtain ⟨record, hrecord, _⟩ := henumerates.all _ List.mem_cons_self
  revert hrecord
  have hnone : ((new ∅ 1 0).putAll (.ofTable emptyKeyRecords) [⟨"", "v1", none, 0⟩]).records (.ofTable emptyKeyRecords)
      keptOrder = [] := by
    decide
  rw [hnone]
  exact List.not_mem_nil

end Forge.Cache
