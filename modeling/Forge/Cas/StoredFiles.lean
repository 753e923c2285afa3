import Forge.Cas.Listing

/-!
# What the operations leave in the files

An operation on a hash changes the files in place for this hash, and temporary ones. Whatever
the file system does, the files stay well named.
-/

namespace Forge.Cas

open Forge.Common

/-! ## Well named files -/

namespace WellNamed

variable {files : CasFiles} {path : CasPath}

/-- No files are well named. -/
theorem empty : WellNamed ∅ := fun path hpath => absurd hpath (AList.notMem_empty path)

/-- Writing a file. -/
theorem insert (hnamed : WellNamed files) (hpath : path.Named) (bytes : Bytes) :
    WellNamed (AList.insert path bytes files) := by
  intro other hother
  rcases (AList.mem_insert files).mp hother with rfl | hother
  · exact hpath
  · exact hnamed other hother

/-- Removing a file. -/
theorem erase (hnamed : WellNamed files) (path : CasPath) : WellNamed (files.erase path) :=
  fun other hother => hnamed other (AList.mem_erase.mp hother).2

/-- Leaving a part of a file. -/
theorem leave (hnamed : WellNamed files) (hpath : path.Named) (left : Option Bytes) :
    WellNamed (Files.leave files path left) := by
  cases left with
  | none => exact hnamed
  | some bytes => exact hnamed.insert hpath bytes

/-- Writing a file through a temporary one. -/
theorem writeRenamed {tmp : CasPath} (hnamed : WellNamed files) (htmp : tmp.Named) (hpath : path.Named)
    (bytes : Bytes) (fault : Option WriteFault) :
    WellNamed (writeRenamed files tmp path bytes fault).2 := by
  cases fault with
  | none =>
    rw [writeRenamed_none]
    exact ((hnamed.insert htmp bytes).erase tmp).insert hpath bytes
  | some fault =>
    cases fault with
    | write source left => exact hnamed.leave htmp left
    | rename source => exact hnamed.insert htmp bytes

end WellNamed

/-- The files of a hash are named. -/
theorem CasFile.named_path {hash : ArtifactHash} (hvalid : validateHash hash.str = .ok ()) (file : CasFile) :
    (file.path hash).Named := ⟨hash, file, hvalid, Or.inl rfl⟩

/-- The temporary files of a hash are named. -/
theorem CasFile.named_tmp {hash : ArtifactHash} (hvalid : validateHash hash.str = .ok ()) (file : CasFile)
    (process : ℕ) : (file.tmp hash process).Named := ⟨hash, file, hvalid, Or.inr ⟨process, rfl⟩⟩

/-- The files other than the temporary one after a file was written, or was not. -/
theorem writeRenamed_lookup (files : CasFiles) {tmp other : CasPath} (htmp : other ≠ tmp) (path : CasPath)
    (bytes : Bytes) (fault : Option WriteFault) :
    (writeRenamed files tmp path bytes fault).2.lookup other =
      if other = path ∧ fault = none then some bytes else files.lookup other := by
  cases fault with
  | none =>
    rw [writeRenamed_none]
    split
    · rename_i h
      rw [h.1, AList.lookup_insert]
    · rename_i h
      rw [Files.lookup_insert_erase _ htmp fun heq => h ⟨heq, rfl⟩, AList.lookup_insert_ne htmp]
  | some fault =>
    rw [if_neg fun h => by cases h.2]
    cases fault with
    | write source left => exact Files.leave_lookup files htmp left
    | rename source => exact AList.lookup_insert_ne htmp

namespace LocalCasBackend

variable (blake3 : Bytes → ArtifactHash) (zstd : Zstd) (codec : MetadataCodec)

/-! ## Store -/

/-- The description that is stored has the hash and the size of the artifact. -/
theorem encode_ok {b : LocalCasBackend} {artifact : Artifact} {encoded : Bytes × ArtifactMetadata}
    (hencode : encode zstd b artifact = .ok encoded) :
    encoded.2.hash = artifact.hash ∧ encoded.2.size = artifact.metadata.size := by
  rw [encode] at hencode
  split at hencode
  · obtain ⟨compressed, _, hencoded⟩ := bind_eq_ok_iff.mp hencode
    cases hencoded
    exact ⟨rfl, rfl⟩
  · cases hencode
    exact ⟨rfl, rfl⟩

/-- Storing an artifact that cannot be prepared leaves the files as they are. -/
theorem store_of_error {b : LocalCasBackend} {artifact : Artifact} {io : StoreIo} {e : CasError}
    (hprepare : prepare blake3 zstd b artifact io.createDir = .error e) (files : CasFiles) :
    store blake3 zstd codec b files artifact io = (.error e, files) := by
  rw [store, hprepare]

/-- What storing a prepared artifact leaves: the data first, and then the description. -/
theorem store_of_ok {b : LocalCasBackend} {artifact : Artifact} {io : StoreIo}
    {dataPath metadataPath : CasPath} {dataToStore : Bytes} {metadata : ArtifactMetadata}
    (hprepare : prepare blake3 zstd b artifact io.createDir =
      .ok (dataPath, metadataPath, dataToStore, metadata)) (files : CasFiles) :
    (store blake3 zstd codec b files artifact io).2 =
      if io.data = none then
        (writeRenamed
          (writeRenamed files (CasFile.data.tmp artifact.hash io.process) (dataFile artifact.hash)
            dataToStore io.data).2
          (CasFile.metadata.tmp artifact.hash io.process) (metadataFile artifact.hash)
          (codec.toVec metadata) io.metadata).2
      else (writeRenamed files (CasFile.data.tmp artifact.hash io.process) (dataFile artifact.hash)
        dataToStore io.data).2 := by
  obtain ⟨_, _, _, _, hdataPath, hmetadataPath⟩ := (prepare_ok_iff blake3 zstd _ _ _ _).mp hprepare
  have htmpData : CasFile.data.tmp artifact.hash io.process =
      (dataFile artifact.hash).withExtension ("tmp." ++ toString io.process) := rfl
  have htmpMeta : CasFile.metadata.tmp artifact.hash io.process =
      (metadataFile artifact.hash).withExtension ("tmp." ++ toString io.process) := rfl
  have hresult := writeRenamed_fst_ok_iff files (CasFile.data.tmp artifact.hash io.process)
    (dataFile artifact.hash) dataToStore io.data
  rw [store, hprepare]
  dsimp only at hdataPath hmetadataPath ⊢
  rw [hdataPath, hmetadataPath, ← htmpData, ← htmpMeta]
  cases hwrite : writeRenamed files (CasFile.data.tmp artifact.hash io.process) (dataFile artifact.hash)
      dataToStore io.data with
  | mk result files₁ =>
    rw [hwrite] at hresult
    cases result with
    | error e => exact (if_neg fun hnone => by cases hresult.mpr hnone).symm
    | ok => exact (if_pos (hresult.mp rfl)).symm

/-- The files in place after storing a prepared artifact. -/
theorem store_lookup {b : LocalCasBackend} {artifact : Artifact} {io : StoreIo}
    {dataPath metadataPath : CasPath} {dataToStore : Bytes} {metadata : ArtifactMetadata}
    (hprepare : prepare blake3 zstd b artifact io.createDir =
      .ok (dataPath, metadataPath, dataToStore, metadata)) (files : CasFiles) {hash : ArtifactHash}
    (hvalid : validateHash hash.str = .ok ()) (file : CasFile) :
    (store blake3 zstd codec b files artifact io).2.lookup (file.path hash) =
      if hash = artifact.hash ∧ io.data = none ∧ file = .data then some dataToStore
      else if hash = artifact.hash ∧ io.data = none ∧ file = .metadata ∧ io.metadata = none then
        some (codec.toVec metadata)
      else files.lookup (file.path hash) := by
  obtain ⟨_, hvalid', _⟩ := (prepare_ok_iff blake3 zstd _ _ _ _).mp hprepare
  have htmp : ∀ file', file.path hash ≠ CasFile.tmp artifact.hash io.process file' := fun file' =>
    (CasFile.tmp_ne_path hvalid' hvalid io.process file' file).symm
  have hdata : file.path hash = dataFile artifact.hash ↔ file = .data ∧ hash = artifact.hash :=
    CasFile.path_eq_path_iff hvalid hvalid' file .data
  have hmetadata : file.path hash = metadataFile artifact.hash ↔ file = .metadata ∧ hash = artifact.hash :=
    CasFile.path_eq_path_iff hvalid hvalid' file .metadata
  rw [store_of_ok blake3 zstd codec hprepare]
  by_cases hfault : io.data = none
  · rw [if_pos hfault, writeRenamed_lookup _ (htmp .metadata), writeRenamed_lookup _ (htmp .data)]
    cases file <;> simp only [hdata, hmetadata, hfault, reduceCtorEq, true_and, false_and, and_true,
      and_false, if_false]
  · rw [if_neg hfault, writeRenamed_lookup _ (htmp .data)]
    simp only [hfault, and_false, false_and, if_false]

end LocalCasBackend

/-- Storing keeps the files well named. -/
theorem WellNamed.store (blake3 : Bytes → ArtifactHash) (zstd : Zstd) (codec : MetadataCodec)
    {files : CasFiles} (hnamed : WellNamed files) (b : LocalCasBackend) (artifact : Artifact) (io : StoreIo) :
    WellNamed (b.store blake3 zstd codec files artifact io).2 := by
  cases hprepare : LocalCasBackend.prepare blake3 zstd b artifact io.createDir with
  | error e =>
    rw [LocalCasBackend.store_of_error blake3 zstd codec hprepare]
    exact hnamed
  | ok prepared =>
    obtain ⟨dataPath, metadataPath, dataToStore, metadata⟩ := prepared
    obtain ⟨_, hvalid, _⟩ := (LocalCasBackend.prepare_ok_iff blake3 zstd _ _ _ _).mp hprepare
    have hdata := hnamed.writeRenamed (CasFile.data.named_tmp hvalid io.process)
      (CasFile.data.named_path hvalid) dataToStore io.data
    rw [LocalCasBackend.store_of_ok blake3 zstd codec hprepare]
    split
    · exact hdata.writeRenamed (CasFile.metadata.named_tmp hvalid io.process)
        (CasFile.metadata.named_path hvalid) _ io.metadata
    · exact hdata

/-! ## Read and delete -/

namespace LocalCasBackend

variable (blake3 : Bytes → ArtifactHash) (zstd : Zstd) (codec : MetadataCodec)

/-- Reading leaves the files as they are, or notes the time in a description that has the hash. -/
theorem retrieve_files (files : CasFiles) (hash : ArtifactHash) (io : RetrieveIo) :
    (retrieve blake3 zstd codec files hash io).2 = files ∨
      validateHash hash.str = .ok () ∧ ∃ metadata : ArtifactMetadata, metadata.hash = hash ∧
        (retrieve blake3 zstd codec files hash io).2 =
          Files.leave files (metadataFile hash) (io.touch.getD (some (codec.toVec metadata))) := by
  cases hvalid : validateHash hash.str with
  | error e =>
    rw [retrieve, hashPath_of_invalid hvalid]
    exact Or.inl rfl
  | ok =>
    obtain ⟨hdataPath, hmetadataPath⟩ := paths_of_valid hvalid
    rw [retrieve, hdataPath, hmetadataPath]
    dsimp only
    cases files.lookup (dataFile hash) with
    | none => exact Or.inl rfl
    | some data =>
      cases files.lookup (metadataFile hash) with
      | none => exact Or.inl rfl
      | some metadataJson =>
        dsimp only
        cases hartifact : readArtifact blake3 zstd codec hash metadataJson data io with
        | error e => exact Or.inl rfl
        | ok artifact =>
          obtain ⟨metadata, _, _, hverified, hsame⟩ :=
            (readArtifact_ok_iff blake3 zstd codec _ _ _ _ artifact).mp hartifact
          refine Or.inr ⟨rfl, artifact.metadata, ?_, ?_⟩
          · rw [hsame]
            exact hverified.2
          · cases io.touch with
            | none => rfl
            | some left => rfl

/-- Removing a file leaves the files without it, unless it fails. -/
theorem removeFile_cases (files : CasFiles) (path : CasPath) (fault : Option String) :
    removeFile files path fault = (.ok (), files.erase path) ∨
      ∃ e, removeFile files path fault = (.error e, files) := by
  rw [removeFile.eq_def]
  by_cases hpath : path ∈ files
  · rw [if_pos hpath]
    cases fault with
    | none => exact Or.inl rfl
    | some source => exact Or.inr ⟨_, rfl⟩
  · rw [if_neg hpath]
    refine Or.inl (congrArg (Prod.mk _) (AList.ext ?_))
    exact (List.kerase_of_notMem_keys hpath).symm

/-- Deleting removes the data first, and then the description. -/
theorem delete_files (files : CasFiles) (hash : ArtifactHash) (io : DeleteIo) :
    (delete files hash io).2 = files ∨ validateHash hash.str = .ok () ∧
      ((delete files hash io).2 = files.erase (dataFile hash) ∨
        (delete files hash io).2 = (files.erase (dataFile hash)).erase (metadataFile hash)) := by
  cases hvalid : validateHash hash.str with
  | error e =>
    rw [delete, hashPath_of_invalid hvalid]
    exact Or.inl rfl
  | ok =>
    obtain ⟨hdataPath, hmetadataPath⟩ := paths_of_valid hvalid
    rw [delete, hdataPath, hmetadataPath]
    dsimp only
    rcases removeFile_cases files (dataFile hash) io.data with hdata | ⟨e, hdata⟩
    · rw [hdata]
      refine Or.inr ⟨rfl, ?_⟩
      rcases removeFile_cases (files.erase (dataFile hash)) (metadataFile hash) io.metadata with
        hmetadata | ⟨e, hmetadata⟩
      · exact Or.inr (congrArg Prod.snd hmetadata)
      · exact Or.inl (congrArg Prod.snd hmetadata)
    · rw [hdata]
      exact Or.inl rfl

end LocalCasBackend

/-- Reading keeps the files well named. -/
theorem WellNamed.retrieve (blake3 : Bytes → ArtifactHash) (zstd : Zstd) (codec : MetadataCodec)
    {files : CasFiles} (hnamed : WellNamed files) (hash : ArtifactHash) (io : RetrieveIo) :
    WellNamed (LocalCasBackend.retrieve blake3 zstd codec files hash io).2 := by
  rcases LocalCasBackend.retrieve_files blake3 zstd codec files hash io with hsame | ⟨hvalid, _, _, hfiles⟩
  · rw [hsame]
    exact hnamed
  · rw [hfiles]
    exact hnamed.leave (CasFile.metadata.named_path hvalid) _

/-- Deleting keeps the files well named. -/
theorem WellNamed.delete {files : CasFiles} (hnamed : WellNamed files) (hash : ArtifactHash) (io : DeleteIo) :
    WellNamed (LocalCasBackend.delete files hash io).2 := by
  rcases LocalCasBackend.delete_files files hash io with hsame | ⟨_, hfiles | hfiles⟩
  · rw [hsame]
    exact hnamed
  · rw [hfiles]
    exact hnamed.erase _
  · rw [hfiles]
    exact (hnamed.erase _).erase _

/-! ## Data and descriptions -/

/-- Every description has its data. -/
def Paired (files : CasFiles) : Prop :=
  ∀ hash : ArtifactHash, validateHash hash.str = .ok () → metadataFile hash ∈ files → dataFile hash ∈ files

/-- Storing keeps the data of every description: it puts the data in place first. -/
theorem Paired.store (blake3 : Bytes → ArtifactHash) (zstd : Zstd) (codec : MetadataCodec)
    {files : CasFiles} (hpaired : Paired files) (b : LocalCasBackend) (artifact : Artifact) (io : StoreIo) :
    Paired (b.store blake3 zstd codec files artifact io).2 := by
  cases hprepare : LocalCasBackend.prepare blake3 zstd b artifact io.createDir with
  | error e =>
    rw [LocalCasBackend.store_of_error blake3 zstd codec hprepare]
    exact hpaired
  | ok prepared =>
    obtain ⟨dataPath, metadataPath, dataToStore, metadata⟩ := prepared
    intro hash hvalid hdescribed
    have hdata := LocalCasBackend.store_lookup blake3 zstd codec hprepare files hvalid .data
    have hmetadata := LocalCasBackend.store_lookup blake3 zstd codec hprepare files hvalid .metadata
    rw [if_neg (fun h => by cases h.2.2)] at hmetadata
    rw [← AList.lookup_isSome] at hdescribed ⊢
    change (AList.lookup (CasFile.data.path hash) _).isSome
    change (AList.lookup (CasFile.metadata.path hash) _).isSome at hdescribed
    rw [hdata]
    rw [hmetadata] at hdescribed
    split
    · rfl
    · rename_i hold
      rw [if_neg fun h => hold ⟨h.1, h.2.1, rfl⟩, AList.lookup_isSome] at hdescribed
      rw [if_neg (fun h => by cases h.2.2.1), AList.lookup_isSome]
      exact hpaired hash hvalid hdescribed

/-- A hash has a description that can be read and is one of this hash. -/
def HasDescription (codec : MetadataCodec) (files : CasFiles) (hash : ArtifactHash) : Prop :=
  ∃ json metadata, files.lookup (metadataFile hash) = some json ∧
    codec.fromSlice json = some metadata ∧ metadata.hash = hash

/-- The files are well named, and all data has a description. -/
structure Described (codec : MetadataCodec) (files : CasFiles) : Prop where
  named : WellNamed files
  description : ∀ hash : ArtifactHash, validateHash hash.str = .ok () → dataFile hash ∈ files →
    HasDescription codec files hash

namespace Described

variable (blake3 : Bytes → ArtifactHash) (zstd : Zstd) {codec : MetadataCodec} {files : CasFiles}

/-- No data has a description. -/
theorem empty : Described codec ∅ :=
  ⟨WellNamed.empty, fun _ _ hdata => absurd hdata (AList.notMem_empty _)⟩

/-- A store that does not fail to write the description keeps descriptions. -/
theorem store (hdescribed : Described codec files) (b : LocalCasBackend) (artifact : Artifact) {io : StoreIo}
    (hio : io.metadata = none) : Described codec (b.store blake3 zstd codec files artifact io).2 := by
  refine ⟨hdescribed.named.store blake3 zstd codec b artifact _, fun hash hvalid hdata => ?_⟩
  cases hprepare : LocalCasBackend.prepare blake3 zstd b artifact io.createDir with
  | error e =>
    rw [LocalCasBackend.store_of_error blake3 zstd codec hprepare] at hdata ⊢
    exact hdescribed.description hash hvalid hdata
  | ok prepared =>
    obtain ⟨dataPath, metadataPath, dataToStore, metadata⟩ := prepared
    obtain ⟨_, _, _, hencode, _⟩ := (LocalCasBackend.prepare_ok_iff blake3 zstd _ _ _ _).mp hprepare
    have hlookup := LocalCasBackend.store_lookup blake3 zstd codec hprepare files hvalid
    by_cases hwritten : hash = artifact.hash ∧ io.data = none
    · obtain ⟨heq, hfault⟩ := hwritten
      refine ⟨codec.toVec metadata, metadata, (hlookup .metadata).trans ?_, codec.fromSlice_toVec metadata, ?_⟩
      · rw [if_neg (fun h => by cases h.2.2), if_pos ⟨heq, hfault, rfl, hio⟩]
      · exact (LocalCasBackend.encode_ok zstd hencode).1.trans heq.symm
    · have hkept : ∀ file : CasFile, (b.store blake3 zstd codec files artifact io).2.lookup (file.path hash) =
          files.lookup (file.path hash) := by
        intro file
        rw [hlookup file, if_neg fun h => hwritten ⟨h.1, h.2.1⟩, if_neg fun h => hwritten ⟨h.1, h.2.1⟩]
      have hbefore : dataFile hash ∈ files := by
        rw [← AList.lookup_isSome] at hdata ⊢
        exact (congrArg Option.isSome (hkept .data)).symm.trans hdata
      obtain ⟨json, old, hjson, hread, hhash⟩ := hdescribed.description hash hvalid hbefore
      exact ⟨json, old, (hkept .metadata).trans hjson, hread, hhash⟩

/-- A description is replaced by another one of its hash. -/
theorem insert_metadata (hdescribed : Described codec files) {hash : ArtifactHash}
    (hvalid : validateHash hash.str = .ok ()) {metadata : ArtifactMetadata} (hhash : metadata.hash = hash) :
    Described codec (AList.insert (metadataFile hash) (codec.toVec metadata) files) := by
  refine ⟨hdescribed.named.insert (CasFile.metadata.named_path hvalid) _, fun hash' hvalid' hdata => ?_⟩
  by_cases heq : hash' = hash
  · subst heq
    exact ⟨codec.toVec metadata, metadata, AList.lookup_insert _, codec.fromSlice_toVec metadata, hhash⟩
  · have hbefore : dataFile hash' ∈ files := by
      rcases (AList.mem_insert files).mp hdata with hpath | hbefore
      · exact absurd hpath.symm (withExtension_ne_dataFile hvalid' _ _)
      · exact hbefore
    obtain ⟨json, old, hjson, hread, hold⟩ := hdescribed.description hash' hvalid' hbefore
    refine ⟨json, old, ?_, hread, hold⟩
    rw [AList.lookup_insert_ne fun hpath => heq (metadataFile_injective hpath)]
    exact hjson

/-- A read that does not fail to note the time keeps descriptions. -/
theorem retrieve (hdescribed : Described codec files) (hash : ArtifactHash) {io : RetrieveIo}
    (hio : io.touch = none) :
    Described codec (LocalCasBackend.retrieve blake3 zstd codec files hash io).2 := by
  rcases LocalCasBackend.retrieve_files blake3 zstd codec files hash io with
    hsame | ⟨hvalid, metadata, hhash, hfiles⟩
  · rw [hsame]
    exact hdescribed
  · rw [hfiles, hio]
    exact hdescribed.insert_metadata hvalid hhash

/-- Removing data keeps the descriptions of the other data. -/
theorem erase_data (hdescribed : Described codec files) {hash : ArtifactHash}
    (hvalid : validateHash hash.str = .ok ()) : Described codec (files.erase (dataFile hash)) := by
  refine ⟨hdescribed.named.erase _, fun hash' hvalid' hdata => ?_⟩
  obtain ⟨json, old, hjson, hread, hold⟩ :=
    hdescribed.description hash' hvalid' (AList.mem_erase.mp hdata).2
  refine ⟨json, old, ?_, hread, hold⟩
  rw [AList.lookup_erase_ne (show metadataFile hash' ≠ dataFile hash from
    withExtension_ne_dataFile hvalid _ _)]
  exact hjson

/-- Deleting removes a description after its data. -/
theorem delete (hdescribed : Described codec files) (hash : ArtifactHash) (io : DeleteIo) :
    Described codec (LocalCasBackend.delete files hash io).2 := by
  rcases LocalCasBackend.delete_files files hash io with hsame | ⟨hvalid, hfiles | hfiles⟩
  · rw [hsame]
    exact hdescribed
  · rw [hfiles]
    exact hdescribed.erase_data hvalid
  · rw [hfiles]
    refine ⟨(hdescribed.named.erase _).erase _, fun hash' hvalid' hdata => ?_⟩
    have hdata' := (AList.mem_erase.mp hdata).2
    obtain ⟨json, old, hjson, hread, hold⟩ :=
      (hdescribed.erase_data hvalid).description hash' hvalid' hdata'
    refine ⟨json, old, ?_, hread, hold⟩
    have hne := (AList.mem_erase.mp hdata').1
    rw [AList.lookup_erase_ne fun hpath => hne (congrArg dataFile (metadataFile_injective hpath))]
    exact hjson

end Described

end Forge.Cas
