import Forge.Cache.LocalCache

/-!
# The objects of the local cache

Next to its records, a cache keeps objects: files that are named by the hashes of their contents.
An object is written to a temporary file and renamed. A record may name an object, whether it is
there or not.
-/

namespace Forge.Cache

open Forge.Common

/-- A hash that can be the name of a file. -/
def validObjectHash (hash : String) : Bool :=
  hash ≠ "" && hash ≠ "." && hash ≠ ".." && hash.toList.all fun c => c ∉ ['/', '\\', '\x00']

/-- The files of the directory of objects: objects, and temporary files. -/
inductive ObjectPath where
  | object (hash : String)
  | tmp (hash : String) (process seq : ℕ)
  deriving DecidableEq, Repr

/-- A cache with its objects. -/
structure ArtifactCache where
  cache : LocalCache
  objects : Files ObjectPath

/-- Where storing an object can fail: at the temporary file, of which a part may be left, or at the
rename. -/
inductive ObjectFault where
  | write (source : String) (left : Option Bytes)
  | rename (source : String)

namespace ArtifactCache

/-- Store an object. -/
def putObject (c : ArtifactCache) (hash : String) (bytes : Bytes) (fault : Option ObjectFault) :
    Except CacheError Unit × ArtifactCache :=
  if validObjectHash hash = false then (.error (.invalidHash hash), c)
  else
    let tmp := ObjectPath.tmp hash c.cache.process c.cache.tmpCounter
    let cache := { c.cache with tmpCounter := c.cache.tmpCounter + 1 }
    match fault with
    | some (.write source left) => (.error (.write hash source), ⟨cache, Files.leave c.objects tmp left⟩)
    | some (.rename source) =>
      (.error (.write hash source), ⟨cache, (AList.insert tmp bytes c.objects).erase tmp⟩)
    | none =>
      match Files.rename (AList.insert tmp bytes c.objects) tmp (.object hash) with
      | some objects => (.ok (), ⟨cache, objects⟩)
      | none => (.error (.write hash "No such file or directory (os error 2)"),
          ⟨cache, AList.insert tmp bytes c.objects⟩)

/-- The contents of an object. Reading the file can fail. -/
def getObject (c : ArtifactCache) (hash : String) (fault : Option String) : Option Bytes :=
  if validObjectHash hash = false then none
  else
    match fault with
    | some _ => none
    | none => c.objects.lookup (.object hash)

end ArtifactCache

namespace LocalCache

variable (codec : RecordCodec)

/-- The hash of the artifact in the record of a key. -/
def artifactHash (c : LocalCache) (key : String) (fault : Option String) : Option String × LocalCache :=
  match c.readRecord codec key fault with
  | (.ok (some record), c) => (record.artifactHash, c)
  | (_, c) => (none, c)

/-- A cache holds a record, in memory or in the file of the key. -/
def Holds (c : LocalCache) (key : String) (record : FingerprintRecord) : Prop :=
  c.memory.lookup key = some record ∨
    ∃ bytes, c.disk.lookup (fingerprintPath key) = some bytes ∧ codec.fromSlice bytes = some record

variable {codec}

/-- What is held depends on the contents of memory and directory only. -/
theorem Holds.congr {c c' : LocalCache} {key : String} {record : FingerprintRecord}
    (hheld : c.Holds codec key record) (hmemory : c.memory = c'.memory) (hdisk : c.disk = c'.disk) :
    c'.Holds codec key record := by
  rw [Holds, ← hmemory, ← hdisk]
  exact hheld

/-- A cache that was opened on an empty directory holds nothing. -/
theorem not_holds_new (process tmpCounter : ℕ) (key : String) (record : FingerprintRecord) :
    ¬ (new ∅ process tmpCounter).Holds codec key record := by
  rintro (hmemory | ⟨bytes, hdisk, _⟩)
  · cases hmemory
  · cases hdisk

/-- After a lookup a cache holds what it held before. -/
theorem holds_of_readRecord {c : LocalCache} {key other : String} {fault : Option String}
    {record : FingerprintRecord} (hheld : (c.readRecord codec key fault).2.Holds codec other record) :
    c.Holds codec other record := by
  rcases hheld with hmemory | ⟨bytes, hdisk, hread⟩
  · rcases c.readRecord_memory codec hmemory with hbefore | ⟨rfl, hfound⟩
    · exact Or.inl hbefore
    · exact c.readRecord_found codec hfound
  · rw [readRecord_disk] at hdisk
    exact Or.inr ⟨bytes, hdisk, hread⟩

/-- A comparison leaves memory and directory as a lookup does. -/
theorem matchesFingerprint_files (codec : RecordCodec) (c : LocalCache) (key fingerprint : String)
    (fault : Option String) :
    (c.matchesFingerprint codec key fingerprint fault).2.memory = (c.readRecord codec key fault).2.memory ∧
      (c.matchesFingerprint codec key fingerprint fault).2.disk = (c.readRecord codec key fault).2.disk := by
  rw [matchesFingerprint]
  cases c.readRecord codec key fault with
  | mk result c' =>
    cases result with
    | error e => exact ⟨rfl, rfl⟩
    | ok found =>
      cases found with
      | none => exact ⟨rfl, rfl⟩
      | some record =>
        dsimp only
        split
        · exact ⟨rfl, rfl⟩
        · exact ⟨rfl, rfl⟩

/-- After a comparison a cache holds what it held before. -/
theorem holds_of_matchesFingerprint {c : LocalCache} {key fingerprint other : String} {fault : Option String}
    {record : FingerprintRecord}
    (hheld : (c.matchesFingerprint codec key fingerprint fault).2.Holds codec other record) :
    c.Holds codec other record := by
  obtain ⟨hmemory, hdisk⟩ := c.matchesFingerprint_files codec key fingerprint fault
  exact holds_of_readRecord (hheld.congr hmemory hdisk)

/-- The hash of an artifact is looked up with the record. -/
theorem artifactHash_eq (c : LocalCache) (key : String) (fault : Option String) :
    c.artifactHash codec key fault =
      ((c.readRecord codec key fault).1.toOption.join.bind FingerprintRecord.artifactHash,
        (c.readRecord codec key fault).2) := by
  rw [artifactHash]
  cases c.readRecord codec key fault with
  | mk result c' =>
    cases result with
    | error e => rfl
    | ok found =>
      cases found with
      | none => rfl
      | some record => rfl

/-- After the hash of an artifact was read a cache holds what it held before. -/
theorem holds_of_artifactHash {c : LocalCache} {key other : String} {fault : Option String}
    {record : FingerprintRecord} (hheld : (c.artifactHash codec key fault).2.Holds codec other record) :
    c.Holds codec other record := by
  rw [artifactHash_eq] at hheld
  exact holds_of_readRecord hheld

/-- The hash of an artifact is that of a record that is held. -/
theorem record_of_artifactHash {c : LocalCache} {key hash : String} {fault : Option String}
    (hfound : (c.artifactHash codec key fault).1 = some hash) :
    ∃ record, (c.readRecord codec key fault).1 = .ok (some record) ∧ c.Holds codec key record ∧
      record.artifactHash = some hash := by
  rw [artifactHash_eq] at hfound
  obtain ⟨record, hrecord, hhash⟩ := Option.bind_eq_some_iff.mp hfound
  cases hresult : (c.readRecord codec key fault).1 with
  | error e =>
    rw [hresult] at hrecord
    cases hrecord
  | ok found =>
    rw [hresult] at hrecord
    cases Option.join_eq_some_iff.mp hrecord
    exact ⟨record, rfl, c.readRecord_found codec hresult, hhash⟩

/-- After a store a cache holds what it held before, or the new record. -/
theorem holds_of_putWithArtifact {c : LocalCache} {key fingerprint other : String}
    {artifactHash : Option String} {now : UInt64} {fault : Option PutFault} {record : FingerprintRecord}
    (hheld : (c.putWithArtifact codec key fingerprint artifactHash now fault).2.Holds codec other record) :
    c.Holds codec other record ∨ (other = key ∧ record = ⟨fingerprint, now, artifactHash, some key⟩) := by
  have hmemory : (c.memory.insert key ⟨fingerprint, now, artifactHash, some key⟩).lookup other =
      some record → c.memory.lookup other = some record ∨
        (other = key ∧ record = ⟨fingerprint, now, artifactHash, some key⟩) := by
    intro hlookup
    by_cases hkey : other = key
    · subst hkey
      rw [AList.lookup_insert] at hlookup
      exact Or.inr ⟨rfl, (Option.some.inj hlookup).symm⟩
    · rw [AList.lookup_insert_ne hkey] at hlookup
      exact Or.inl hlookup
  have htmp := (uniqueTmpPath_ne_fingerprintPath key other c.process c.tmpCounter).symm
  cases fault with
  | none =>
    obtain ⟨_, hmemory', hdisk'⟩ := c.putWithArtifact_ok codec key fingerprint artifactHash now
    rcases hheld with hlookup | ⟨bytes, hdisk, hread⟩
    · rw [hmemory'] at hlookup
      exact (hmemory hlookup).imp_left Or.inl
    · rw [hdisk'] at hdisk
      by_cases hkey : other = key
      · rw [if_pos hkey] at hdisk
        cases hdisk
        rw [codec.fromSlice_toVec] at hread
        exact Or.inr ⟨hkey, (Option.some.inj hread).symm⟩
      · rw [if_neg hkey] at hdisk
        exact Or.inl (Or.inr ⟨bytes, hdisk, hread⟩)
  | some fault =>
    cases fault with
    | createDir source => exact Or.inl hheld
    | write source left =>
      rcases hheld with hlookup | ⟨bytes, hdisk, hread⟩
      · exact (hmemory hlookup).imp_left Or.inl
      · change (Files.leave c.disk _ left).lookup _ = _ at hdisk
        rw [Files.leave_lookup c.disk htmp] at hdisk
        exact Or.inl (Or.inr ⟨bytes, hdisk, hread⟩)
    | rename source =>
      rcases hheld with hlookup | ⟨bytes, hdisk, hread⟩
      · exact (hmemory hlookup).imp_left Or.inl
      · change ((AList.insert _ _ c.disk).erase _).lookup _ = _ at hdisk
        rw [AList.lookup_erase_ne htmp, AList.lookup_insert_ne htmp] at hdisk
        exact Or.inl (Or.inr ⟨bytes, hdisk, hread⟩)

end LocalCache

namespace ArtifactCache

/-- Storing an object leaves the records. -/
theorem putObject_cache (c : ArtifactCache) (hash : String) (bytes : Bytes) (fault : Option ObjectFault) :
    (c.putObject hash bytes fault).2.cache.memory = c.cache.memory ∧
      (c.putObject hash bytes fault).2.cache.disk = c.cache.disk := by
  rw [putObject]
  split
  · exact ⟨rfl, rfl⟩
  · cases fault with
    | none =>
      dsimp only
      rw [Files.rename_insert]
      exact ⟨rfl, rfl⟩
    | some fault => cases fault <;> exact ⟨rfl, rfl⟩

/-- The objects after an object was stored, or was not. -/
theorem lookup_of_putObject {c : ArtifactCache} {hash other : String} {bytes data : Bytes}
    {fault : Option ObjectFault}
    (hlookup : (c.putObject hash bytes fault).2.objects.lookup (.object other) = some data) :
    c.objects.lookup (.object other) = some data ∨ (other = hash ∧ data = bytes) := by
  have htmp : ∀ seq, ObjectPath.object other ≠ ObjectPath.tmp hash c.cache.process seq := nofun
  rw [putObject] at hlookup
  split at hlookup
  · exact Or.inl hlookup
  · cases fault with
    | none =>
      dsimp only at hlookup
      rw [Files.rename_insert] at hlookup
      by_cases hhash : other = hash
      · subst hhash
        dsimp only at hlookup
        rw [AList.lookup_insert] at hlookup
        exact Or.inr ⟨rfl, (Option.some.inj hlookup).symm⟩
      · have hpath : ObjectPath.object other ≠ .object hash := fun heq => hhash (ObjectPath.object.inj heq)
        dsimp only at hlookup
        rw [Files.lookup_insert_erase _ (htmp _) hpath, AList.lookup_insert_ne (htmp _)] at hlookup
        exact Or.inl hlookup
    | some fault =>
      cases fault with
      | write source left =>
        dsimp only at hlookup
        rw [Files.leave_lookup c.objects (htmp _)] at hlookup
        exact Or.inl hlookup
      | rename source =>
        dsimp only at hlookup
        rw [AList.lookup_erase_ne (htmp _), AList.lookup_insert_ne (htmp _)] at hlookup
        exact Or.inl hlookup

/-- What is read of an object is in its file. -/
theorem lookup_of_getObject {c : ArtifactCache} {hash : String} {fault : Option String} {data : Bytes}
    (hfound : c.getObject hash fault = some data) : c.objects.lookup (.object hash) = some data := by
  rw [getObject.eq_def] at hfound
  split at hfound
  · cases hfound
  · cases fault with
    | some source => cases hfound
    | none => exact hfound

end ArtifactCache

end Forge.Cache
