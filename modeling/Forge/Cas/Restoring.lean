import Forge.Cas.Quota
import Forge.Cas.Statistics

/-!
# Storing an artifact again

A storage with a quota adds the size of an artifact to what the store has before it looks whether the
artifact is there. So an artifact that is there already is stored again only if there is room for it
once more. Then the list and the statistics are as before.
-/

namespace Forge.Cas

open Forge.Common

section Restoring

variable (readDir : ReadDir) (blake3 : Bytes → ArtifactHash) (zstd : Zstd) (codec : MetadataCodec)

/-- The store has the artifact: its data as it is stored for it, and a description of this hash and size. -/
structure AlreadyStored (b : LocalCasBackend) (files : CasFiles) (artifact : Artifact) : Prop where
  hash : blake3 artifact.data = artifact.hash
  data : ∃ dataToStore metadata, LocalCasBackend.encode zstd b artifact = .ok (dataToStore, metadata) ∧
    files.lookup (dataFile artifact.hash) = some dataToStore
  description : ∃ read, LocalCasBackend.metadata codec files artifact.hash = .ok read ∧
    read.size = artifact.metadata.size

/-- A call succeeded, and the list and the statistics are as before. -/
structure Restored (files : CasFiles) (outcome : Except CasError Unit × CasFiles) : Prop where
  ok : outcome.1 = .ok ()
  list : (LocalCasBackend.list readDir outcome.2).Perm (LocalCasBackend.list readDir files)
  stats : LocalCasBackend.stats readDir codec outcome.2 = LocalCasBackend.stats readDir codec files

/-- A call alone asks whether there is room, and stores the artifact or fails. -/
theorem CasStorage.run_store (storage : CasStorage) (artifact : Artifact) (io : StoreIo) (files : CasFiles) :
    Program.run (StorageOp.perform readDir blake3 zstd codec storage) (storage.store artifact io) files =
      if storage.maxSizeBytes = 0 ∨ storage.Fits (LocalCasBackend.stats readDir codec files) artifact then
        storage.backend.store blake3 zstd codec files artifact io
      else
        (.error (.quotaExceeded ("Storage quota exceeded: " ++
          toString (LocalCasBackend.stats readDir codec files).totalBytes.toNat ++ " + " ++
            toString artifact.metadata.size.toNat ++ " > " ++ toString storage.maxSizeBytes.toNat)), files) := by
  by_cases hquota : 0 < storage.maxSizeBytes
  · have hnonzero : storage.maxSizeBytes ≠ 0 := by
      intro hzero
      rw [hzero] at hquota
      exact absurd hquota (by decide)
    rw [CasStorage.store_eq hquota, Program.run]
    change Program.run _ (if storage.Fits (LocalCasBackend.stats readDir codec files) artifact then _ else _) files = _
    by_cases hfits : storage.Fits (LocalCasBackend.stats readDir codec files) artifact
    · rw [if_pos hfits, if_pos (Or.inr hfits)]
      rfl
    · rw [if_neg hfits, if_neg fun h => h.elim hnonzero hfits]
      rfl
  · have hzero : storage.maxSizeBytes = 0 := by
      rw [UInt64.lt_iff_toNat_lt] at hquota
      exact UInt64.toNat_inj.mp (Nat.le_zero.mp (Nat.le_of_not_lt hquota))
    rw [if_pos (Or.inl hzero), CasStorage.store, if_neg hquota]
    rfl

namespace LocalCasBackend

/-! ## The list and the statistics -/

variable {readDir codec} {files files' : CasFiles}

/-- What is listed is a valid hash. -/
theorem valid_of_mem_list {hash : ArtifactHash} (hlisted : hash ∈ list readDir files) :
    validateHash hash.str = .ok () := by
  rw [list, List.mem_filterMap] at hlisted
  obtain ⟨path, _, hpath⟩ := hlisted
  rw [CasPath.listedHash] at hpath
  dsimp only at hpath
  split at hpath
  · cases hpath
  · split at hpath
    · rename_i hvalid
      cases hpath
      exact hvalid
    · cases hpath

/-- Writing a file that is there under a temporary name and renaming it leaves the list. -/
theorem list_writeRenamed_perm {tmp path : CasPath} (hpath : path ∈ files) (hne : path ≠ tmp)
    (htmp : tmp.listedHash = none) (bytes : Bytes) :
    (list readDir (writeRenamed files tmp path bytes none).2).Perm (list readDir files) := by
  have hlist : ∀ files : CasFiles, (list readDir files).Perm (files.keys.filterMap CasPath.listedHash) :=
    fun files => (readDir.perm files).filterMap _
  have hkeys : (writeRenamed files tmp path bytes none).2.keys.Perm (files.keys.erase tmp) := by
    rw [writeRenamed_none]
    dsimp only
    rw [AList.keys_insert, AList.keys_erase, AList.keys_insert, List.erase_cons_head]
    exact (List.perm_cons_erase ((List.mem_erase_of_ne hne).mpr (AList.mem_keys.mp hpath))).symm
  have herase : ((files.keys.erase tmp).filterMap CasPath.listedHash).Perm
      (files.keys.filterMap CasPath.listedHash) := by
    by_cases hmem : tmp ∈ files.keys
    · have hcons := (List.perm_cons_erase hmem).filterMap CasPath.listedHash
      rw [List.filterMap_cons_none htmp] at hcons
      exact hcons.symm
    · rw [List.erase_of_not_mem hmem]
  exact (hlist _).trans ((hkeys.filterMap _).trans (herase.trans (hlist _).symm))

/-- The statistics come from the list and from the sizes of what is listed. -/
theorem stats_eq_of_perm (hperm : (list readDir files').Perm (list readDir files))
    (hsizes : ∀ hash ∈ list readDir files',
      (healthy codec files' hash).map (fun found => (found.1.size, found.2)) =
        (healthy codec files hash).map fun found => (found.1.size, found.2)) :
    stats readDir codec files' = stats readDir codec files := by
  have hcount : ∀ start, ∀ hash ∈ list readDir files',
      countArtifact codec files' start hash = countArtifact codec files start hash := by
    intro start hash hlisted
    have hsame := hsizes hash hlisted
    rw [countArtifact, countArtifact]
    cases hafter : healthy codec files' hash with
    | none =>
      rw [hafter] at hsame
      rw [Option.map_eq_none_iff.mp hsame.symm]
    | some found =>
      rw [hafter] at hsame
      obtain ⟨found', hbefore, heq⟩ := Option.map_eq_some_iff.mp hsame.symm
      rw [hbefore]
      dsimp only at heq ⊢
      rw [Prod.mk.injEq] at heq
      rw [heq.1, heq.2]
  have hadd : ∀ a b c : UInt64, a + b + c = a + c + b := fun a b c => by
    rw [UInt64.add_assoc, UInt64.add_comm b c, ← UInt64.add_assoc]
  have hcomm : RightCommutative (countArtifact codec files) := by
    constructor
    intro start hash hash'
    rw [countArtifact, countArtifact, countArtifact, countArtifact]
    cases healthy codec files hash with
    | none => rfl
    | some found =>
      cases healthy codec files hash' with
      | none => rfl
      | some found' =>
        dsimp only
        rw [CasStats.mk.injEq]
        exact ⟨rfl, hadd _ _ _, hadd _ _ _, rfl⟩
  rw [stats, stats, List.foldl_ext _ _ _ hcount]
  exact hperm.foldl_eq _

end LocalCasBackend

/-! ## Storing again -/

variable {readDir blake3 zstd codec}

/-- What is already stored is prepared for its files. -/
theorem AlreadyStored.prepare_ok {b : LocalCasBackend} {files : CasFiles} {artifact : Artifact}
    (hstored : AlreadyStored blake3 zstd codec b files artifact) :
    ∃ dataToStore metadata, files.lookup (dataFile artifact.hash) = some dataToStore ∧
      LocalCasBackend.prepare blake3 zstd b artifact none =
        .ok (dataFile artifact.hash, metadataFile artifact.hash, dataToStore, metadata) := by
  obtain ⟨dataToStore, metadata, hencode, hdata⟩ := hstored.data
  obtain ⟨read, hread, _⟩ := hstored.description
  have hvalid := ((LocalCasBackend.metadata_eq_ok_iff codec files _ _).mp hread).1
  exact ⟨dataToStore, metadata, hdata,
    (LocalCasBackend.prepare_ok_iff blake3 zstd b artifact none _).mpr ⟨hstored.hash, hvalid, rfl, hencode, rfl, rfl⟩⟩

/-- The store has an artifact once a store of it completed. -/
theorem alreadyStored_store {b : LocalCasBackend} {files : CasFiles} {artifact : Artifact} {io : StoreIo}
    (hok : (b.store blake3 zstd codec files artifact io).1 = .ok ()) :
    AlreadyStored blake3 zstd codec b (b.store blake3 zstd codec files artifact io).2 artifact := by
  obtain ⟨hhash, hvalid, dataToStore, metadata, hencode, hdata, hmetadata⟩ :=
    LocalCasBackend.store_ok blake3 zstd codec hok
  obtain ⟨hsame, hsize⟩ := LocalCasBackend.encode_ok zstd hencode
  exact ⟨hhash, ⟨dataToStore, metadata, hencode, hdata⟩, metadata,
    (LocalCasBackend.metadata_eq_ok_iff codec _ _ _).mpr
      ⟨hvalid, _, hmetadata, codec.fromSlice_toVec metadata, hsame⟩, hsize⟩

/-- Storing an artifact that the store has leaves the list and the statistics. -/
theorem AlreadyStored.restored {b : LocalCasBackend} {files : CasFiles} {artifact : Artifact}
    (hstored : AlreadyStored blake3 zstd codec b files artifact) (process : ℕ) :
    Restored readDir codec files (b.store blake3 zstd codec files artifact ⟨process, none, none, none⟩) := by
  obtain ⟨dataToStore, metadata, hdata, hprepared⟩ := hstored.prepare_ok
  have hprepare : LocalCasBackend.prepare blake3 zstd b artifact
      (StoreIo.createDir ⟨process, none, none, none⟩) = _ := hprepared
  obtain ⟨read, hread, hsize⟩ := hstored.description
  obtain ⟨hvalid, json, hjson, hfound, hhash⟩ := (LocalCasBackend.metadata_eq_ok_iff codec files _ _).mp hread
  obtain ⟨_, _, _, hencode, _⟩ := (LocalCasBackend.prepare_ok_iff blake3 zstd _ _ _ _).mp hprepare
  obtain ⟨hsame, hsame'⟩ := LocalCasBackend.encode_ok zstd hencode
  have hlist : (LocalCasBackend.list readDir
      (b.store blake3 zstd codec files artifact ⟨process, none, none, none⟩).2).Perm
        (LocalCasBackend.list readDir files) := by
    have htmp : ∀ file file' : CasFile, file.path artifact.hash ≠ CasFile.tmp artifact.hash process file' :=
      fun file file' => (CasFile.tmp_ne_path hvalid hvalid process file' file).symm
    rw [LocalCasBackend.store_of_ok blake3 zstd codec hprepare, if_pos rfl]
    refine (LocalCasBackend.list_writeRenamed_perm ?_ (htmp .metadata .metadata)
      (listedHash_tmp _ _ _) _).trans (LocalCasBackend.list_writeRenamed_perm
        (AList.lookup_isSome.mp (Option.isSome_of_eq_some hdata)) (htmp .data .data) (listedHash_tmp _ _ _) _)
    have hother : metadataFile artifact.hash ≠ dataFile artifact.hash := withExtension_ne _ _
    rw [← AList.lookup_isSome, writeRenamed_lookup _ (htmp .metadata .data), if_neg fun h => hother h.1]
    exact Option.isSome_of_eq_some hjson
  refine ⟨(LocalCasBackend.store_fst_ok_iff blake3 zstd codec b files artifact _).mpr
      ⟨⟨hstored.hash, hvalid, _, hencode⟩, rfl, rfl, rfl⟩, hlist,
    LocalCasBackend.stats_eq_of_perm hlist fun hash hlisted => ?_⟩
  have hlookup := LocalCasBackend.store_lookup blake3 zstd codec hprepare files
    (LocalCasBackend.valid_of_mem_list hlisted)
  by_cases hother : hash = artifact.hash
  · subst hother
    have hdata' : (b.store blake3 zstd codec files artifact ⟨process, none, none, none⟩).2.lookup
        (dataFile artifact.hash) = some dataToStore := (hlookup .data).trans (if_pos ⟨rfl, rfl, rfl⟩)
    have hjson' : (b.store blake3 zstd codec files artifact ⟨process, none, none, none⟩).2.lookup
        (metadataFile artifact.hash) = some (codec.toVec metadata) :=
      (hlookup .metadata).trans ((if_neg fun h => by cases h.2.2).trans (if_pos ⟨rfl, rfl, rfl, rfl⟩))
    rw [LocalCasBackend.healthy, LocalCasBackend.healthy, hdata, hdata', hjson, hjson']
    dsimp only
    rw [codec.fromSlice_toVec, hfound]
    dsimp only at hsame hsame' ⊢
    rw [if_pos hsame, if_pos hhash, Option.map_some, Option.map_some, hsame', hsize]
  · refine congrArg (Option.map _) (LocalCasBackend.healthy_congr codec fun file => ?_)
    rw [hlookup file, if_neg fun h => hother h.1, if_neg fun h => hother h.1]

variable (readDir blake3 zstd codec)

/-- Storing an artifact that the store has succeeds and leaves the list and the statistics, exactly when
there is no quota, or there is room for the artifact once more. -/
theorem restored_iff (storage : CasStorage) {files : CasFiles} {artifact : Artifact}
    (hstored : AlreadyStored blake3 zstd codec storage.backend files artifact) (process : ℕ) :
    Restored readDir codec files (Program.run (StorageOp.perform readDir blake3 zstd codec storage)
        (storage.store artifact ⟨process, none, none, none⟩) files) ↔
      storage.maxSizeBytes = 0 ∨ storage.Fits (LocalCasBackend.stats readDir codec files) artifact := by
  rw [CasStorage.run_store]
  split
  · rename_i hroom
    exact iff_of_true (hstored.restored process) hroom
  · rename_i hroom
    exact iff_of_false (fun hrestored => by cases hrestored.ok) hroom

end Restoring

/-- A quota of twelve bytes has room for the sample artifact, but not for it once more. -/
theorem not_restored_twelveBytes :
    ∃ files, AlreadyStored sampleBlake3 sampleZstd (.ofTable sampleDescriptions) twelveBytes.backend files
        sampleArtifact ∧
      ¬ Restored keysInOrder (.ofTable sampleDescriptions) files
        (Program.run (StorageOp.perform keysInOrder sampleBlake3 sampleZstd (.ofTable sampleDescriptions) twelveBytes)
          (twelveBytes.store sampleArtifact ⟨1, none, none, none⟩) files) := by
  have hok : (LocalCasBackend.store sampleBlake3 sampleZstd (.ofTable sampleDescriptions) ⟨.none⟩ ∅ sampleArtifact
      ⟨1, none, none, none⟩).1 = .ok () := by
    decide
  refine ⟨_, alreadyStored_store hok, fun hrestored => ?_⟩
  have hnew := LocalCasBackend.totalSize_store_of_new keysInOrder _ _ _ WellNamed.empty hok (AList.notMem_empty _)
  have hfull : ¬ twelveBytes.Fits (LocalCasBackend.stats keysInOrder (.ofTable sampleDescriptions)
      (LocalCasBackend.store sampleBlake3 sampleZstd (.ofTable sampleDescriptions) ⟨.none⟩ ∅ sampleArtifact
        ⟨1, none, none, none⟩).2) sampleArtifact := by
    intro hfits
    have hle := hfits.le (by decide)
    rw [LocalCasBackend.stats_totalBytes, ← LocalCasBackend.totalSize, hnew] at hle
    revert hle
    decide
  rw [CasStorage.run_store, if_neg fun h => h.elim (by decide) hfull] at hrestored
  cases hrestored.ok

/-- Without a quota the sample artifact is stored again. -/
theorem restored_iff_unlimited :
    ∃ files, Restored keysInOrder (.ofTable sampleDescriptions) files
        (Program.run (StorageOp.perform keysInOrder sampleBlake3 sampleZstd (.ofTable sampleDescriptions) ⟨⟨.none⟩, 0⟩)
          (CasStorage.store ⟨⟨.none⟩, 0⟩ sampleArtifact ⟨1, none, none, none⟩) files) ↔
      (0 : UInt64) = 0 ∨ CasStorage.Fits ⟨⟨.none⟩, 0⟩
        (LocalCasBackend.stats keysInOrder (.ofTable sampleDescriptions) files) sampleArtifact := by
  have hok : (LocalCasBackend.store sampleBlake3 sampleZstd (.ofTable sampleDescriptions) ⟨.none⟩ ∅ sampleArtifact
      ⟨1, none, none, none⟩).1 = .ok () := by
    decide
  exact ⟨_, restored_iff keysInOrder sampleBlake3 sampleZstd (.ofTable sampleDescriptions) ⟨⟨.none⟩, 0⟩
    (alreadyStored_store hok) 1⟩

end Forge.Cas
