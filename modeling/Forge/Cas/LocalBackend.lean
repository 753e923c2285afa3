import Forge.Cas.Compression
import Forge.Common.Fallible

/-!
# The local store of artifacts

Every artifact has two files, its data and its description, in a directory named by the
first two digits of its hash. Both are written under temporary names and renamed. Reading
checks that the data and the description carry the hash that was asked for, and notes the
time of the access in the description.
-/

namespace Forge.Cas

open Forge.Common

/-- A path below the root of the store. -/
structure CasPath where
  dir : String
  name : String
  deriving DecidableEq, Repr

/-- The files of a store. -/
abbrev CasFiles := Files CasPath

/-- Where writing a file through a temporary one can fail: at the temporary file, of which a
part may be left, or at the rename. -/
inductive WriteFault where
  | write (source : String) (left : Option Bytes)
  | rename (source : String)

/-- What the file system does while an artifact is stored, and the process that stores it. -/
structure StoreIo where
  process : ℕ
  createDir : Option String
  data : Option WriteFault
  metadata : Option WriteFault

/-- What the file system does while an artifact is read, and the time. The last write can fail
and leave a part of the description. -/
structure RetrieveIo where
  readMetadata : Option String
  readData : Option String
  now : ℤ
  touch : Option (Option Bytes)

/-- Whether a byte is a hexadecimal digit. -/
def isAsciiHexdigit (byte : UInt8) : Bool :=
  ('0'.val.toUInt8 ≤ byte && byte ≤ '9'.val.toUInt8) ||
    ('a'.val.toUInt8 ≤ byte && byte ≤ 'f'.val.toUInt8) ||
    ('A'.val.toUInt8 ≤ byte && byte ≤ 'F'.val.toUInt8)

/-- Only 64 hexadecimal digits name files. -/
def validateHash (hash : String) : Except CasError Unit :=
  if (utf8Bytes hash).length = 64 ∧ (utf8Bytes hash).all isAsciiHexdigit then .ok ()
  else .error (.config ("invalid artifact hash " ++ "`" ++ hash ++ "`" ++
    "; expected a 64-character hexadecimal BLAKE3 digest"))

/-- A file next to another, with an extension to its name. A hash has no extension that this
would replace. -/
def CasPath.withExtension (path : CasPath) (extension : String) : CasPath :=
  { path with name := path.name ++ "." ++ extension }

/-- The file for the data of a hash. -/
def dataFile (hash : ArtifactHash) : CasPath :=
  ⟨String.ofList (hash.str.toList.take 2), String.ofList (hash.str.toList.drop 2)⟩

/-- The file for the description of a hash. -/
def metadataFile (hash : ArtifactHash) : CasPath := (dataFile hash).withExtension "meta"

/-- The file for the data of a hash, if it is one. -/
def hashPath (hash : ArtifactHash) : Except CasError CasPath := do
  validateHash hash.str
  return dataFile hash

/-- The file for the description of a hash, if it is one. -/
def metadataPath (hash : ArtifactHash) : Except CasError CasPath := do
  let path ← hashPath hash
  return path.withExtension "meta"

/-- Write a file under a temporary name and rename it. -/
def writeRenamed (files : CasFiles) (tmp path : CasPath) (bytes : Bytes) :
    Option WriteFault → Except CasError Unit × CasFiles
  | some (.write source left) => (.error (.io source), Files.leave files tmp left)
  | some (.rename source) => (.error (.io source), AList.insert tmp bytes files)
  | none =>
    match Files.rename (AList.insert tmp bytes files) tmp path with
    | some files => (.ok (), files)
    | none => (.error (.io "No such file or directory (os error 2)"), AList.insert tmp bytes files)

/-- A local store. -/
structure LocalCasBackend where
  compression : CompressionAlgorithm
  deriving DecidableEq, Repr

namespace LocalCasBackend

section Operations

variable (blake3 : Bytes → ArtifactHash) (zstd : Zstd) (codec : MetadataCodec)

/-- The data that is stored for an artifact, and the description that goes with it. Only a
compressing store changes the description. -/
def encode (b : LocalCasBackend) (artifact : Artifact) : Except CasError (Bytes × ArtifactMetadata) :=
  if b.compression ≠ .none then do
    let compressed ← compress zstd artifact.data b.compression
    return (compressed,
      artifact.metadata.withCompression (.ofNat compressed.length) b.compression.asStr)
  else return (artifact.data, artifact.metadata)

/-- What happens before the first file of an artifact is written: the data is checked against the
declared hash, the directory is made, and the data is compressed. -/
def prepare (b : LocalCasBackend) (artifact : Artifact) (createDir : Option String) :
    Except CasError (CasPath × CasPath × Bytes × ArtifactMetadata) := do
  if blake3 artifact.data ≠ artifact.hash then
    throw (.hash ("artifact data does not match declared hash " ++ "`" ++ artifact.hash.str ++ "`"))
  let dataPath ← hashPath artifact.hash
  let metadataPath ← metadataPath artifact.hash
  if let some source := createDir then throw (.io source)
  let (dataToStore, metadata) ← encode zstd b artifact
  return (dataPath, metadataPath, dataToStore, metadata)

/-- Store an artifact. -/
def store (b : LocalCasBackend) (files : CasFiles) (artifact : Artifact) (io : StoreIo) :
    Except CasError Unit × CasFiles :=
  match prepare blake3 zstd b artifact io.createDir with
  | .error e => (.error e, files)
  | .ok (dataPath, metadataPath, dataToStore, metadata) =>
    let tmpData := dataPath.withExtension ("tmp." ++ toString io.process)
    match writeRenamed files tmpData dataPath dataToStore io.data with
    | (.error e, files) => (.error e, files)
    | (.ok (), files) =>
      let tmpMeta := metadataPath.withExtension ("tmp." ++ toString io.process)
      writeRenamed files tmpMeta metadataPath (codec.toVec metadata) io.metadata

/-- The data of an artifact as its description says it is compressed. An unknown algorithm counts
as none. -/
def decodeStored (metadata : ArtifactMetadata) (data : Bytes) : Except CasError Bytes :=
  match metadata.compression with
  | some tag => decompress zstd data ((CompressionAlgorithm.fromStr tag).toOption.getD .none)
  | none => .ok data

/-- The description that a file holds. -/
def readMetadata (metadataJson : Bytes) (fault : Option String) : Except CasError ArtifactMetadata :=
  match fault with
  | some source => .error (.io source)
  | none =>
    match fromUtf8 metadataJson with
    | none => .error (.io "stream did not contain valid UTF-8")
    | some text =>
      match codec.fromStr text with
      | .ok metadata => .ok metadata
      | .error e => .error (.serialization e)

/-- The data that a file holds. -/
def readData (metadata : ArtifactMetadata) (data : Bytes) (fault : Option String) :
    Except CasError Bytes :=
  match fault with
  | some source => .error (.io source)
  | none => decodeStored zstd metadata data

/-- Check data and description against the hash that was asked for. -/
def verify (hash : ArtifactHash) (metadata : ArtifactMetadata) (data : Bytes) : Except CasError Unit :=
  if blake3 data ≠ hash ∨ metadata.hash ≠ hash then
    .error (.hash ("stored artifact failed integrity verification for " ++ "`" ++ hash.str ++ "`"))
  else .ok ()

/-- The artifact that two files make, with the time of the access. -/
def readArtifact (hash : ArtifactHash) (metadataJson data : Bytes) (io : RetrieveIo) :
    Except CasError Artifact := do
  let metadata ← readMetadata codec metadataJson io.readMetadata
  let decompressed ← readData zstd metadata data io.readData
  verify blake3 hash metadata decompressed
  return ⟨{ metadata with lastAccessed := some io.now }, decompressed, none⟩

/-- Read an artifact. -/
def retrieve (files : CasFiles) (hash : ArtifactHash) (io : RetrieveIo) :
    Except CasError Artifact × CasFiles :=
  match hashPath hash, metadataPath hash with
  | .error e, _ => (.error e, files)
  | _, .error e => (.error e, files)
  | .ok dataPath, .ok metadataPath =>
    match files.lookup dataPath, files.lookup metadataPath with
    | some data, some metadataJson =>
      match readArtifact blake3 zstd codec hash metadataJson data io with
      | .error e => (.error e, files)
      | .ok artifact =>
        match io.touch with
        | none => (.ok artifact, AList.insert metadataPath (codec.toVec artifact.metadata) files)
        | some left => (.ok artifact, Files.leave files metadataPath left)
    | _, _ => (.error (.artifactNotFound hash.str), files)

end Operations

/-- Whether a store has both files of an artifact. -/
def existsArtifact (files : CasFiles) (hash : ArtifactHash) : Except CasError Bool := do
  let dataPath ← hashPath hash
  let metadataPath ← metadataPath hash
  return (files.lookup dataPath).isSome && (files.lookup metadataPath).isSome

end LocalCasBackend

/-! ## What the operations do -/

/-- An invalid hash has no file names. -/
theorem hashPath_of_invalid {hash : ArtifactHash} {e : CasError} (hvalid : validateHash hash.str = .error e) :
    hashPath hash = .error e := by
  rw [hashPath, hvalid]
  rfl

/-- A valid hash has its file names. -/
theorem paths_of_valid {hash : ArtifactHash} (hvalid : validateHash hash.str = .ok ()) :
    hashPath hash = .ok (dataFile hash) ∧ metadataPath hash = .ok (metadataFile hash) := by
  have hpath : hashPath hash = .ok (dataFile hash) := by
    rw [hashPath, hvalid]
    rfl
  refine ⟨hpath, ?_⟩
  rw [metadataPath, hpath]
  rfl

/-- The characters of a name with an extension. -/
theorem withExtension_toList (path : CasPath) (extension : String) :
    (path.withExtension extension).name.toList = path.name.toList ++ '.' :: extension.toList := by
  rw [CasPath.withExtension, String.toList_append, String.toList_append, List.append_assoc]
  rfl

/-- A file with an extension is another file. -/
theorem withExtension_ne (path : CasPath) (extension : String) : path.withExtension extension ≠ path := by
  intro heq
  have hname := congrArg (fun path => path.name.toList.length) heq
  simp only [withExtension_toList, List.length_append, List.length_cons] at hname
  omega

/-- A file with two extensions is another file than with none. -/
theorem withExtension_withExtension_ne (path : CasPath) (first second : String) :
    (path.withExtension first).withExtension second ≠ path := by
  intro heq
  have hname := congrArg (fun path => path.name.toList.length) heq
  simp only [withExtension_toList, List.length_append, List.length_cons] at hname
  omega

/-- The files when the file system does not fail. -/
theorem writeRenamed_none (files : CasFiles) (tmp path : CasPath) (bytes : Bytes) :
    writeRenamed files tmp path bytes none =
      (.ok (), AList.insert path bytes ((AList.insert tmp bytes files).erase tmp)) := by
  rw [writeRenamed, Files.rename_insert]

/-- A file that is written without failing holds what was written, and all others but the
temporary one are as before. -/
theorem writeRenamed_ok {files files' : CasFiles} {tmp path : CasPath} {bytes : Bytes}
    {fault : Option WriteFault} (hwrite : writeRenamed files tmp path bytes fault = (.ok (), files')) :
    files'.lookup path = some bytes ∧
      ∀ other, other ≠ tmp → other ≠ path → files'.lookup other = files.lookup other := by
  cases fault with
  | some fault => cases fault <;> cases hwrite
  | none =>
    rw [writeRenamed_none] at hwrite
    cases hwrite
    refine ⟨AList.lookup_insert _, fun other htmp hpath => ?_⟩
    rw [Files.lookup_insert_erase _ htmp hpath, AList.lookup_insert_ne htmp]

namespace LocalCasBackend

section Operations

variable (blake3 : Bytes → ArtifactHash) (zstd : Zstd) (codec : MetadataCodec)

/-- A prepared artifact has the declared hash, which is valid, and is encoded for its files. -/
theorem prepare_ok_iff (b : LocalCasBackend) (artifact : Artifact) (createDir : Option String)
    (prepared : CasPath × CasPath × Bytes × ArtifactMetadata) :
    prepare blake3 zstd b artifact createDir = .ok prepared ↔
      blake3 artifact.data = artifact.hash ∧ validateHash artifact.hash.str = .ok () ∧
        createDir = none ∧ encode zstd b artifact = .ok prepared.2.2 ∧
        prepared.1 = dataFile artifact.hash ∧ prepared.2.1 = metadataFile artifact.hash := by
  rw [prepare]
  by_cases hhash : blake3 artifact.data = artifact.hash
  · rw [if_neg (not_not_intro hhash)]
    cases hvalid : validateHash artifact.hash.str with
    | error e =>
      have hpath : hashPath artifact.hash = .error e := by
        rw [hashPath, hvalid]
        rfl
      rw [hpath]
      exact iff_of_false nofun fun h => by cases h.2.1
    | ok =>
      obtain ⟨hdata, hmetadata⟩ := paths_of_valid hvalid
      rw [hdata, hmetadata]
      cases createDir with
      | some source => exact iff_of_false nofun fun h => by cases h.2.2.1
      | none =>
        cases hencode : encode zstd b artifact with
        | error e => exact iff_of_false nofun fun h => by cases h.2.2.2.1
        | ok encoded =>
          constructor
          · intro hprepared
            cases hprepared
            exact ⟨hhash, rfl, rfl, rfl, rfl, rfl⟩
          · intro h
            obtain ⟨_, _, _, hencoded, hdataFile, hmetadataFile⟩ := h
            obtain ⟨dataPath, metadataPath, dataToStore, metadata⟩ := prepared
            cases hencoded
            cases hdataFile
            cases hmetadataFile
            rfl
  · rw [if_pos hhash]
    exact iff_of_false nofun fun h => hhash h.1

/-- Writing a file succeeds when the file system does not fail. -/
theorem writeRenamed_fst_ok_iff (files : CasFiles) (tmp path : CasPath) (bytes : Bytes)
    (fault : Option WriteFault) : (writeRenamed files tmp path bytes fault).1 = .ok () ↔ fault = none := by
  cases fault with
  | some fault => cases fault <;> exact iff_of_false nofun nofun
  | none =>
    rw [writeRenamed_none]
    exact iff_of_true rfl rfl

/-- Storing succeeds for an artifact with the declared hash, which is valid, that can be encoded,
when the file system does not fail. -/
theorem store_fst_ok_iff (b : LocalCasBackend) (files : CasFiles) (artifact : Artifact) (io : StoreIo) :
    (store blake3 zstd codec b files artifact io).1 = .ok () ↔
      (blake3 artifact.data = artifact.hash ∧ validateHash artifact.hash.str = .ok () ∧
        ∃ encoded, encode zstd b artifact = .ok encoded) ∧
      io.createDir = none ∧ io.data = none ∧ io.metadata = none := by
  rw [store]
  cases hprepare : prepare blake3 zstd b artifact io.createDir with
  | error e =>
    refine iff_of_false nofun fun h => ?_
    obtain ⟨⟨hhash, hvalid, encoded, hencode⟩, hdir, _⟩ := h
    have hprepared := (prepare_ok_iff blake3 zstd b artifact io.createDir
      (dataFile artifact.hash, metadataFile artifact.hash, encoded)).mpr
        ⟨hhash, hvalid, hdir, hencode, rfl, rfl⟩
    rw [hprepare] at hprepared
    cases hprepared
  | ok prepared =>
    obtain ⟨hhash, hvalid, hdir, hencode, _⟩ :=
      (prepare_ok_iff blake3 zstd b artifact io.createDir prepared).mp hprepare
    rw [and_iff_right ⟨hhash, hvalid, _, hencode⟩, and_iff_right hdir]
    simp only
    have hdata := writeRenamed_fst_ok_iff files
      (prepared.1.withExtension ("tmp." ++ toString io.process)) prepared.1 prepared.2.2.1 io.data
    cases hwrite : writeRenamed files (prepared.1.withExtension ("tmp." ++ toString io.process))
      prepared.1 prepared.2.2.1 io.data with
    | mk result files₁ =>
      rw [hwrite] at hdata
      cases result with
      | error e => exact iff_of_false nofun fun h => by cases hdata.mpr h.1
      | ok =>
        rw [and_iff_right (hdata.mp rfl)]
        exact writeRenamed_fst_ok_iff _ _ _ _ _

/-- A stored artifact has the declared hash, which is valid, and its files hold its encoding. -/
theorem store_ok {b : LocalCasBackend} {files : CasFiles} {artifact : Artifact} {io : StoreIo}
    (hstore : (store blake3 zstd codec b files artifact io).1 = .ok ()) :
    blake3 artifact.data = artifact.hash ∧ validateHash artifact.hash.str = .ok () ∧
      ∃ dataToStore metadata, encode zstd b artifact = .ok (dataToStore, metadata) ∧
        (store blake3 zstd codec b files artifact io).2.lookup (dataFile artifact.hash) =
          some dataToStore ∧
        (store blake3 zstd codec b files artifact io).2.lookup (metadataFile artifact.hash) =
          some (codec.toVec metadata) := by
  rw [store] at hstore ⊢
  cases hprepare : prepare blake3 zstd b artifact io.createDir with
  | error e =>
    rw [hprepare] at hstore
    cases hstore
  | ok prepared =>
    rw [hprepare] at hstore
    obtain ⟨hhash, hvalid, _, hencode, hdataPath, hmetadataPath⟩ :=
      (prepare_ok_iff blake3 zstd b artifact io.createDir prepared).mp hprepare
    obtain ⟨dataPath, metadataPath, dataToStore, metadata⟩ := prepared
    simp only at hdataPath hmetadataPath hencode hstore ⊢
    subst hdataPath hmetadataPath
    revert hstore
    cases hdata : writeRenamed files ((dataFile artifact.hash).withExtension
      ("tmp." ++ toString io.process)) (dataFile artifact.hash) dataToStore io.data with
    | mk result files₁ =>
      cases result with
      | error e => exact fun hstore => by cases hstore
      | ok =>
        simp only
        cases hmetadata : writeRenamed files₁ ((metadataFile artifact.hash).withExtension
          ("tmp." ++ toString io.process)) (metadataFile artifact.hash) (codec.toVec metadata)
          io.metadata with
        | mk result files₂ =>
          intro hstore
          cases hstore
          obtain ⟨hdataHeld, _⟩ := writeRenamed_ok hdata
          obtain ⟨hmetadataHeld, hkept⟩ := writeRenamed_ok hmetadata
          refine ⟨hhash, hvalid, dataToStore, metadata, hencode, ?_, hmetadataHeld⟩
          rw [hkept _ (withExtension_withExtension_ne _ _ _).symm (withExtension_ne _ _).symm]
          exact hdataHeld

/-- A description is read from a file that can be read and holds one. -/
theorem readMetadata_ok_iff (metadataJson : Bytes) (fault : Option String) (metadata : ArtifactMetadata) :
    readMetadata codec metadataJson fault = .ok metadata ↔
      fault = none ∧ codec.fromSlice metadataJson = some metadata := by
  rw [readMetadata.eq_def, JsonCodec.fromSlice, JsonCodec.tryFromSlice]
  cases fault with
  | some source => exact iff_of_false (fun h => by cases h) fun h => by cases h.1
  | none =>
    rw [and_iff_right rfl]
    cases fromUtf8 metadataJson with
    | none => exact iff_of_false (fun h => by cases h) (fun h => by cases h)
    | some text =>
      simp only
      cases codec.fromStr text with
      | error e => exact iff_of_false (fun h => by cases h) (fun h => by cases h)
      | ok read => exact ⟨fun h => by cases h; rfl, fun h => by cases h; rfl⟩

/-- Data and description pass the check when both carry the hash. -/
theorem verify_ok_iff (hash : ArtifactHash) (metadata : ArtifactMetadata) (data : Bytes) :
    verify blake3 hash metadata data = .ok () ↔ blake3 data = hash ∧ metadata.hash = hash := by
  rw [verify]
  by_cases hverified : blake3 data = hash ∧ metadata.hash = hash
  · rw [if_neg (by rw [not_or, not_not, not_not]; exact hverified)]
    exact iff_of_true rfl hverified
  · rw [if_pos (not_and_or.mp hverified)]
    exact iff_of_false nofun hverified

/-- An artifact is read when both files can be read, the data decodes, and both data and
description carry the hash that was asked for. -/
theorem readArtifact_ok_iff (hash : ArtifactHash) (metadataJson data : Bytes) (io : RetrieveIo)
    (artifact : Artifact) :
    readArtifact blake3 zstd codec hash metadataJson data io = .ok artifact ↔
      ∃ metadata, readMetadata codec metadataJson io.readMetadata = .ok metadata ∧
        readData zstd metadata data io.readData = .ok artifact.data ∧
        (blake3 artifact.data = hash ∧ metadata.hash = hash) ∧
        artifact = ⟨{ metadata with lastAccessed := some io.now }, artifact.data, none⟩ := by
  rw [readArtifact]
  simp only [bind_eq_ok_iff, pure_eq_ok_iff]
  refine exists_congr fun metadata => and_congr_right fun _ => ?_
  constructor
  · intro h
    obtain ⟨decompressed, hdata, _, hverified, rfl⟩ := h
    exact ⟨hdata, (verify_ok_iff blake3 hash metadata decompressed).mp hverified, rfl⟩
  · intro h
    obtain ⟨hdata, hverified, hartifact⟩ := h
    exact ⟨artifact.data, hdata, (), (verify_ok_iff blake3 hash metadata artifact.data).mpr hverified,
      hartifact.symm⟩

/-- Reading with valid hash and both files in place reads the artifact they make. -/
theorem retrieve_fst {files : CasFiles} {hash : ArtifactHash} (hvalid : validateHash hash.str = .ok ())
    {data metadataJson : Bytes} (hdata : files.lookup (dataFile hash) = some data)
    (hmetadata : files.lookup (metadataFile hash) = some metadataJson) (io : RetrieveIo) :
    (retrieve blake3 zstd codec files hash io).1 =
      readArtifact blake3 zstd codec hash metadataJson data io := by
  obtain ⟨hdataPath, hmetadataPath⟩ := paths_of_valid hvalid
  rw [retrieve, hdataPath, hmetadataPath]
  simp only [hdata, hmetadata]
  cases readArtifact blake3 zstd codec hash metadataJson data io with
  | error e => rfl
  | ok artifact =>
    cases io.touch with
    | none => rfl
    | some left => rfl

/-- Only what has a valid hash can be read. -/
theorem retrieve_valid {files : CasFiles} {hash : ArtifactHash} {io : RetrieveIo} {artifact : Artifact}
    (hretrieve : (retrieve blake3 zstd codec files hash io).1 = .ok artifact) :
    validateHash hash.str = .ok () := by
  cases hvalid : validateHash hash.str with
  | error e =>
    rw [retrieve, hashPath_of_invalid hvalid] at hretrieve
    cases hretrieve
  | ok => rfl

/-- A read artifact comes from both files in place. -/
theorem retrieve_ok {files : CasFiles} {hash : ArtifactHash} {io : RetrieveIo} {artifact : Artifact}
    (hretrieve : (retrieve blake3 zstd codec files hash io).1 = .ok artifact) :
    ∃ data metadataJson, files.lookup (dataFile hash) = some data ∧
      files.lookup (metadataFile hash) = some metadataJson ∧
      readArtifact blake3 zstd codec hash metadataJson data io = .ok artifact := by
  have hvalid := retrieve_valid blake3 zstd codec hretrieve
  cases hdata : files.lookup (dataFile hash) with
  | none =>
    obtain ⟨hdataPath, hmetadataPath⟩ := paths_of_valid hvalid
    rw [retrieve, hdataPath, hmetadataPath] at hretrieve
    simp only [hdata] at hretrieve
    cases hretrieve
  | some data =>
    cases hmetadata : files.lookup (metadataFile hash) with
    | none =>
      obtain ⟨hdataPath, hmetadataPath⟩ := paths_of_valid hvalid
      rw [retrieve, hdataPath, hmetadataPath] at hretrieve
      simp only [hdata, hmetadata] at hretrieve
      cases hretrieve
    | some metadataJson =>
      rw [retrieve_fst blake3 zstd codec hvalid hdata hmetadata] at hretrieve
      exact ⟨data, metadataJson, rfl, rfl, hretrieve⟩

/-- Some data can be read for a hash, as long as the file system does not fail. -/
def Retrievable (files : CasFiles) (hash : ArtifactHash) (data : Bytes) : Prop :=
  ∀ now touch, ∃ artifact,
    (retrieve blake3 zstd codec files hash ⟨none, none, now, touch⟩).1 = .ok artifact ∧ artifact.data = data

/-- Two files make some data for a hash: one holds a description with that hash, and what the other
holds decodes to the data, which has the hash. -/
def FilesMake (hash : ArtifactHash) (stored json : Option Bytes) (data : Bytes) : Prop :=
  ∃ storedBytes jsonBytes metadata, stored = some storedBytes ∧ json = some jsonBytes ∧
    codec.fromSlice jsonBytes = some metadata ∧ metadata.hash = hash ∧
    decodeStored zstd metadata storedBytes = .ok data ∧ blake3 data = hash

/-- The data that can be read for a hash is what its two files make. -/
theorem retrievable_iff (files : CasFiles) (hash : ArtifactHash) (data : Bytes) :
    Retrievable blake3 zstd codec files hash data ↔ validateHash hash.str = .ok () ∧
      FilesMake blake3 zstd codec hash (files.lookup (dataFile hash)) (files.lookup (metadataFile hash))
        data := by
  constructor
  · intro hretrievable
    obtain ⟨artifact, hread, rfl⟩ := hretrievable 0 none
    have hvalid := retrieve_valid blake3 zstd codec hread
    refine ⟨hvalid, ?_⟩
    obtain ⟨stored, json, hstored, hjson, hartifact⟩ := retrieve_ok blake3 zstd codec hread
    obtain ⟨metadata, hmetadata, hdata, hverified, _⟩ :=
      (readArtifact_ok_iff blake3 zstd codec hash json stored _ artifact).mp hartifact
    exact ⟨stored, json, metadata, hstored, hjson,
      ((readMetadata_ok_iff codec json none metadata).mp hmetadata).2, hverified.2, hdata, hverified.1⟩
  · intro h now touch
    obtain ⟨hvalid, stored, json, metadata, hstored, hjson, hmetadata, hhash, hdecode, hdata⟩ := h
    refine ⟨⟨{ metadata with lastAccessed := some now }, data, none⟩, ?_, rfl⟩
    rw [retrieve_fst blake3 zstd codec hvalid hstored hjson]
    exact (readArtifact_ok_iff blake3 zstd codec _ _ _ _ _).mpr
      ⟨metadata, (readMetadata_ok_iff codec json none metadata).mpr ⟨rfl, hmetadata⟩, hdecode,
        ⟨hdata, hhash⟩, rfl⟩

end Operations

end LocalCasBackend

end Forge.Cas
