import Forge.Cache.KeyCodec
import Forge.Common.Files
import Forge.Common.JsonCodec

/-!
# The local cache of fingerprints

One record a key, in a file of its own and in a map in memory. A store puts the record into
the map, writes a temporary file and renames it to the file of the key. A lookup asks first
whether the file exists, then the map, and reads the file only if the map has nothing. Times
are counted in seconds.
-/

namespace Forge.Cache

open Forge.Common

/-- What is stored about a key. -/
structure FingerprintRecord where
  fingerprint : String
  storedAt : UInt64
  artifactHash : Option String
  key : Option String
  deriving DecidableEq, Repr

/-- How records are written to files and read back. -/
abbrev RecordCodec := JsonCodec FingerprintRecord

instance : Encodable FingerprintRecord :=
  Encodable.ofLeftInjection
    (fun record => (record.fingerprint, record.storedAt.toNat, record.artifactHash, record.key))
    (fun data => some ⟨data.1, .ofNat data.2.1, data.2.2.1, data.2.2.2⟩)
    (fun record => by rw [UInt64.ofNat_toNat])

/-- A record without an artifact as it is written to its file at time zero, when nothing is to be escaped. -/
def recordText (fingerprint key : String) : String :=
  "\x7b\"fingerprint\":\"" ++ fingerprint ++ "\",\"stored_at\":0,\"artifact_hash\":null,\"key\":\"" ++ key ++ "\"\x7d"

/-- A record starts with a brace. -/
theorem recordText_head (fingerprint key : String) : (recordText fingerprint key).toList.head? ≠ some '\x00' := by
  have hbrace : "\x7b\"fingerprint\":\"".toList = '\x7b' :: "\"fingerprint\":\"".toList := by decide
  unfold recordText
  rw [String.append_assoc, String.append_assoc, String.append_assoc, String.toList_append, hbrace, List.cons_append,
    List.head?_cons]
  decide

/-- Two records of one key as they are written to files. -/
def sampleRecords : JsonCodec.Table FingerprintRecord where
  known :=
    [(⟨"v1", 0, none, some "a"⟩,
        "\x7b\"fingerprint\":\"v1\",\"stored_at\":0,\"artifact_hash\":null,\"key\":\"a\"\x7d"),
      (⟨"v2", 0, none, some "a"⟩,
        "\x7b\"fingerprint\":\"v2\",\"stored_at\":0,\"artifact_hash\":null,\"key\":\"a\"\x7d")]
  texts_nodup := by decide
  nonzero := by decide

/-- The files of the directory of records: records, and temporary files. A temporary file is
named after the file it is for, the process that writes it and a number of that process. -/
inductive RecordPath where
  | record (name : String)
  | tmp (name : String) (process seq : ℕ)
  deriving DecidableEq, Repr

/-- The directory of records. -/
abbrev Directory := Files RecordPath

/-- The records kept in memory. -/
abbrev MemoryCache := AList fun _ : String => FingerprintRecord

/-- The errors of the cache that concern records and objects. -/
inductive CacheError where
  | read (key source : String)
  | write (key source : String)
  | invalidHash (hash : String)
  deriving DecidableEq, Repr

/-- Counters of the cache. -/
structure CacheStats where
  hits : ℕ
  misses : ℕ
  errors : ℕ
  deriving DecidableEq, Repr

/-- A cache with the directory it works on and the process it is used in, whose temporary
files are numbered. -/
structure LocalCache where
  disk : Directory
  memory : MemoryCache
  stats : CacheStats
  process : ℕ
  tmpCounter : ℕ

/-- Where a store can fail: at the directory, at the temporary file, of which a part may be
left, or at the rename. -/
inductive PutFault where
  | createDir (source : String)
  | write (source : String) (left : Option Bytes)
  | rename (source : String)

/-- The file name of a record. -/
def recordName (key : String) : String := encodeKey key ++ ".json"

/-- The file of a key. -/
def fingerprintPath (key : String) : RecordPath := .record (recordName key)

/-- A temporary file for a key. -/
def uniqueTmpPath (key : String) (process seq : ℕ) : RecordPath := .tmp (recordName key) process seq

/-- Different keys have different files. -/
@[simp] theorem fingerprintPath_inj (key other : String) :
    fingerprintPath key = fingerprintPath other ↔ key = other := by
  rw [fingerprintPath, fingerprintPath, RecordPath.record.injEq, recordName, recordName]
  constructor
  · intro hname
    have hchars := congrArg String.toList hname
    rw [String.toList_append, String.toList_append] at hchars
    exact encodeKey_injective (String.toList_injective (List.append_cancel_right hchars))
  · exact congrArg fun key => encodeKey key ++ ".json"

/-- A temporary file is not the file of a key. -/
theorem uniqueTmpPath_ne_fingerprintPath (key other : String) (process seq : ℕ) :
    uniqueTmpPath key process seq ≠ fingerprintPath other := nofun

namespace LocalCache

/-- A cache that is opened on a directory. -/
def new (disk : Directory) (process tmpCounter : ℕ) : LocalCache := ⟨disk, ∅, ⟨0, 0, 0⟩, process, tmpCounter⟩

section Records

variable (codec : RecordCodec)

/-- Look the record of a key up. Reading the file can fail. -/
def readRecord (c : LocalCache) (key : String) (fault : Option String) :
    Except CacheError (Option FingerprintRecord) × LocalCache :=
  match c.disk.lookup (fingerprintPath key) with
  | none => (.ok none, { c with memory := c.memory.erase key })
  | some bytes =>
    match c.memory.lookup key with
    | some record => (.ok (some record), c)
    | none =>
      match fault with
      | some source => (.error (.read key source), c)
      | none =>
        match codec.fromSlice bytes with
        | some record => (.ok (some record), { c with memory := c.memory.insert key record })
        | none => (.ok none, c)

/-- The fingerprint stored for a key. -/
def get (c : LocalCache) (key : String) (fault : Option String) : Option String × LocalCache :=
  match c.readRecord codec key fault with
  | (.ok (some record), c) => (some record.fingerprint, c)
  | (_, c) => (none, c)

/-- Whether the fingerprint stored for a key is the given one. -/
def matchesFingerprint (c : LocalCache) (key fingerprint : String) (fault : Option String) :
    Bool × LocalCache :=
  match c.readRecord codec key fault with
  | (.ok (some record), c) =>
    if record.fingerprint = fingerprint then
      (true, { c with stats := { c.stats with hits := c.stats.hits + 1 } })
    else (false, { c with stats := { c.stats with misses := c.stats.misses + 1 } })
  | (_, c) => (false, { c with stats := { c.stats with misses := c.stats.misses + 1 } })

/-- Store a fingerprint for a key, with the hash of an artifact. -/
def putWithArtifact (c : LocalCache) (key fingerprint : String) (artifactHash : Option String)
    (now : UInt64) (fault : Option PutFault) : Except CacheError Unit × LocalCache :=
  let record : FingerprintRecord := ⟨fingerprint, now, artifactHash, some key⟩
  let tmp := uniqueTmpPath key c.process c.tmpCounter
  let entered := { c with memory := c.memory.insert key record, tmpCounter := c.tmpCounter + 1 }
  match fault with
  | some (.createDir source) => (.error (.write key source), c)
  | some (.write source left) =>
    (.error (.write key source), { entered with disk := Files.leave c.disk tmp left })
  | some (.rename source) =>
    (.error (.write key source), { entered with disk := (c.disk.insert tmp (codec.toVec record)).erase tmp })
  | none =>
    match Files.rename (c.disk.insert tmp (codec.toVec record)) tmp (fingerprintPath key) with
    | some disk => (.ok (), { entered with disk := disk })
    | none => (.error (.write key "No such file or directory (os error 2)"), entered)

/-- Store a fingerprint for a key. -/
def put (c : LocalCache) (key fingerprint : String) (now : UInt64) (fault : Option PutFault) :
    Except CacheError Unit × LocalCache :=
  c.putWithArtifact codec key fingerprint none now fault

end Records

/-- Count an error. -/
def recordError (c : LocalCache) : LocalCache :=
  { c with stats := { c.stats with errors := c.stats.errors + 1 } }

/-! ## What lookups and stores do -/

section Records

variable (codec : RecordCodec)

/-- A lookup leaves the directory. -/
@[simp] theorem readRecord_disk (c : LocalCache) (key : String) (fault : Option String) :
    (c.readRecord codec key fault).2.disk = c.disk := by
  fun_cases readRecord codec c key fault <;> rfl

/-- A found record was in memory, or else in the file. -/
theorem readRecord_found (c : LocalCache) {key : String} {fault : Option String}
    {record : FingerprintRecord} (hfound : (c.readRecord codec key fault).1 = .ok (some record)) :
    c.memory.lookup key = some record ∨
      ∃ bytes, c.disk.lookup (fingerprintPath key) = some bytes ∧ codec.fromSlice bytes = some record := by
  rw [readRecord] at hfound
  cases hfile : c.disk.lookup (fingerprintPath key) with
  | none =>
    rw [hfile] at hfound
    cases hfound
  | some bytes =>
    rw [hfile] at hfound
    cases hmemory : c.memory.lookup key with
    | some held =>
      rw [hmemory] at hfound
      cases hfound
      exact Or.inl rfl
    | none =>
      rw [hmemory] at hfound
      cases fault with
      | some source => cases hfound
      | none =>
        simp only at hfound
        cases hread : codec.fromSlice bytes with
        | none =>
          rw [hread] at hfound
          cases hfound
        | some read =>
          rw [hread] at hfound
          cases hfound
          exact Or.inr ⟨bytes, rfl, hread⟩

/-- After a lookup the memory holds what it held, and what was found. -/
theorem readRecord_memory (c : LocalCache) {key other : String} {fault : Option String}
    {record : FingerprintRecord}
    (hheld : (c.readRecord codec key fault).2.memory.lookup other = some record) :
    c.memory.lookup other = some record ∨
      (other = key ∧ (c.readRecord codec key fault).1 = .ok (some record)) := by
  revert hheld
  fun_cases readRecord codec c key fault with
  | case1 hfile =>
    intro hheld
    by_cases hother : other = key
    · subst hother
      rw [AList.lookup_erase] at hheld
      cases hheld
    · rw [AList.lookup_erase_ne hother] at hheld
      exact Or.inl hheld
  | case2 => exact Or.inl
  | case3 => exact Or.inl
  | case4 bytes hfile hmemory read hread =>
    intro hheld
    by_cases hother : other = key
    · subst hother
      rw [AList.lookup_insert] at hheld
      cases hheld
      exact Or.inr ⟨rfl, rfl⟩
    · rw [AList.lookup_insert_ne hother] at hheld
      exact Or.inl hheld
  | case5 => exact Or.inl

/-- A comparison succeeds when the fingerprint is the stored one. -/
theorem matchesFingerprint_iff (c : LocalCache) (key fingerprint : String) (fault : Option String) :
    (c.matchesFingerprint codec key fingerprint fault).1 = true ↔
      (c.get codec key fault).1 = some fingerprint := by
  rw [matchesFingerprint, get]
  cases c.readRecord codec key fault with
  | mk result c' =>
    cases result with
    | error e => exact iff_of_false Bool.false_ne_true nofun
    | ok found =>
      cases found with
      | none => exact iff_of_false Bool.false_ne_true nofun
      | some record =>
        simp only [Option.some.injEq]
        by_cases hfingerprint : record.fingerprint = fingerprint
        · rw [if_pos hfingerprint]
          exact iff_of_true rfl hfingerprint
        · rw [if_neg hfingerprint]
          exact iff_of_false Bool.false_ne_true hfingerprint

/-- The answer to a lookup that meets no fault: nothing without a file, else what is in memory,
else what the file says. -/
theorem get_eq (c : LocalCache) (key : String) :
    (c.get codec key none).1 =
      (c.disk.lookup (fingerprintPath key)).bind fun bytes =>
        ((c.memory.lookup key).or (codec.fromSlice bytes)).map FingerprintRecord.fingerprint := by
  rw [get, readRecord]
  cases c.disk.lookup (fingerprintPath key) with
  | none => rfl
  | some bytes =>
    cases c.memory.lookup key with
    | some record => rfl
    | none =>
      simp only [Option.bind_some, Option.none_or]
      cases codec.fromSlice bytes with
      | none => rfl
      | some record => rfl

/-- A store that meets no fault puts its record into memory and into the file of its key, and
leaves all other records. -/
theorem putWithArtifact_ok (c : LocalCache) (key fingerprint : String) (artifactHash : Option String)
    (now : UInt64) :
    (c.putWithArtifact codec key fingerprint artifactHash now none).1 = .ok () ∧
      (c.putWithArtifact codec key fingerprint artifactHash now none).2.memory =
        c.memory.insert key ⟨fingerprint, now, artifactHash, some key⟩ ∧
      ∀ other, (c.putWithArtifact codec key fingerprint artifactHash now none).2.disk.lookup
          (fingerprintPath other) =
        if other = key then some (codec.toVec ⟨fingerprint, now, artifactHash, some key⟩)
        else c.disk.lookup (fingerprintPath other) := by
  rw [putWithArtifact]
  simp only [Files.rename, AList.lookup_insert, Option.map_some]
  refine ⟨trivial, trivial, fun other => ?_⟩
  by_cases hother : other = key
  · subst hother
    rw [if_pos rfl, AList.lookup_insert]
  · have hpath : fingerprintPath other ≠ fingerprintPath key := by
      rwa [ne_eq, fingerprintPath_inj]
    have htmp := (uniqueTmpPath_ne_fingerprintPath key other c.process c.tmpCounter).symm
    rw [if_neg hother, AList.lookup_insert_ne hpath, AList.lookup_erase_ne htmp,
      AList.lookup_insert_ne htmp]

end Records

end LocalCache

end Forge.Cache
