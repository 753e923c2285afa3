import Forge.Cas.StoreSteps

/-!
# A process that stops while it stores

The data of an artifact is replaced before its description. A process that stops in between
leaves new data under the old description. What could be read before can still be read
exactly when the old description decodes the new data to the same.
-/

namespace Forge.Cas.LocalCasBackend

open Forge.Common

variable (blake3 : Bytes → ArtifactHash) (zstd : Zstd) (codec : MetadataCodec)

/-- The files that a process leaves when it stops after some accesses to files. -/
def stoppedAfter (n : ℕ) (b : LocalCasBackend) (files : CasFiles) (artifact : Artifact) (process : ℕ) :
    CasFiles :=
  (Program.runFor FileOp.perform n (storeSteps blake3 zstd codec b artifact process) files).2

/-- The files that completed stores can leave in an empty directory, each with its own settings. -/
inductive StoredOnly : CasFiles → Prop
  | empty : StoredOnly ∅
  | store {files : CasFiles} (hfiles : StoredOnly files) (b : LocalCasBackend) (artifact : Artifact)
      (io : StoreIo) (hok : (store blake3 zstd codec b files artifact io).1 = .ok ()) :
      StoredOnly (store blake3 zstd codec b files artifact io).2

/-- The description in place decodes what is about to be stored to what can be read now, if anything
can be. -/
def KeepsOld (b : LocalCasBackend) (files : CasFiles) (artifact : Artifact) : Prop :=
  ∀ dataPath metadataPath dataToStore metadata,
    prepare blake3 zstd b artifact none = .ok (dataPath, metadataPath, dataToStore, metadata) →
    ∀ json old data, files.lookup (metadataFile artifact.hash) = some json →
      codec.fromSlice json = some old → Retrievable blake3 zstd codec files artifact.hash data →
        decodeStored zstd old dataToStore = .ok data

variable {blake3 zstd codec}

/-- A process that stops before it is done leaves all files in place as they were, but the data of
the artifact, which it has replaced if it came that far. -/
theorem stoppedAfter_lookup {b : LocalCasBackend} {artifact : Artifact} {dataPath metadataPath : CasPath}
    {dataToStore : Bytes} {metadata : ArtifactMetadata}
    (hprepare : prepare blake3 zstd b artifact none = .ok (dataPath, metadataPath, dataToStore, metadata))
    {n : ℕ} (hn : n < 4) (files : CasFiles) (process : ℕ) {hash : ArtifactHash}
    (hvalid : validateHash hash.str = .ok ()) (file : CasFile) :
    (stoppedAfter blake3 zstd codec n b files artifact process).lookup (file.path hash) =
      if 2 ≤ n ∧ file = .data ∧ hash = artifact.hash then some dataToStore
      else files.lookup (file.path hash) := by
  obtain ⟨_, hvalid', _⟩ := (prepare_ok_iff blake3 zstd b artifact none _).mp hprepare
  have htmp : ∀ file', file.path hash ≠ CasFile.tmp artifact.hash process file' := fun file' =>
    (CasFile.tmp_ne_path hvalid' hvalid process file' file).symm
  have hdata : ∀ m, 2 ≤ m → (writeRenamed files (CasFile.data.tmp artifact.hash process)
      (CasFile.data.path artifact.hash) dataToStore none).2.lookup (file.path hash) =
        if 2 ≤ m ∧ file = .data ∧ hash = artifact.hash then some dataToStore
        else files.lookup (file.path hash) := by
    intro m hm
    rw [writeRenamed_none]
    split
    · rename_i hsame
      rw [hsame.2.1, hsame.2.2, AList.lookup_insert]
    · rename_i hother
      rw [Files.lookup_insert_erase _ (htmp .data)
        (fun heq => hother ⟨hm, (CasFile.path_eq_path_iff hvalid hvalid' file .data).mp heq⟩),
        AList.lookup_insert_ne (htmp .data)]
  obtain ⟨hwrite, hrename⟩ := perform_ops .data artifact.hash process dataToStore files
  rw [stoppedAfter, storeSteps_of_ok blake3 zstd codec hprepare]
  rcases n with _ | _ | _ | _ | n
  · rfl
  · rw [CasFile.ops, List.cons_append, Program.runFor_sequence_cons hwrite]
    exact AList.lookup_insert_ne (htmp .data)
  · rw [CasFile.ops, List.cons_append, List.cons_append, Program.runFor_sequence_cons hwrite,
      Program.runFor_sequence_cons hrename]
    exact hdata 2 (by decide)
  · obtain ⟨hwrite', _⟩ := perform_ops .metadata artifact.hash process (codec.toVec metadata)
      (writeRenamed files (CasFile.data.tmp artifact.hash process) (CasFile.data.path artifact.hash)
        dataToStore none).2
    rw [CasFile.ops, List.cons_append, List.cons_append, List.nil_append,
      Program.runFor_sequence_cons hwrite, Program.runFor_sequence_cons hrename, CasFile.ops,
      Program.runFor_sequence_cons hwrite']
    exact (AList.lookup_insert_ne (htmp .metadata)).trans (hdata 3 (by decide))
  · omega

/-- When a process stops before the last access, what could be read can still be read exactly when
the description in place decodes what is about to be stored to what can be read now. -/
theorem stopped_retrievable_iff_keepsOld (b : LocalCasBackend) (files : CasFiles) (artifact : Artifact)
    (process : ℕ) :
    (∀ n < 4, ∀ hash data, Retrievable blake3 zstd codec files hash data →
        Retrievable blake3 zstd codec (stoppedAfter blake3 zstd codec n b files artifact process) hash
          data) ↔
      KeepsOld blake3 zstd codec b files artifact := by
  simp only [retrievable_iff, KeepsOld]
  constructor
  · intro hstopped dataPath metadataPath dataToStore metadata hprepare json old data hjson hold hread
    have hvalid := hread.1
    obtain ⟨_, stored, json', old', hstored, hjson', hold', _, hdecode, _⟩ :=
      hstopped 2 (by decide) artifact.hash data hread
    rw [show dataFile artifact.hash = CasFile.data.path artifact.hash from rfl,
      stoppedAfter_lookup hprepare (by decide) files process hvalid .data, if_pos ⟨Nat.le_refl 2, rfl, rfl⟩]
      at hstored
    rw [show metadataFile artifact.hash = CasFile.metadata.path artifact.hash from rfl,
      stoppedAfter_lookup hprepare (by decide) files process hvalid .metadata,
      if_neg (fun h => by cases h.2.1)] at hjson'
    cases hstored
    cases hjson.symm.trans hjson'
    cases hold.symm.trans hold'
    exact hdecode
  · intro hkeeps n hn hash data hread
    cases hprepare : prepare blake3 zstd b artifact none with
    | error e =>
      rw [stoppedAfter, storeSteps_of_error blake3 zstd codec hprepare]
      cases n <;> exact hread
    | ok prepared =>
      obtain ⟨dataPath, metadataPath, dataToStore, metadata⟩ := prepared
      obtain ⟨hvalid, hmake⟩ := hread
      refine ⟨hvalid, ?_⟩
      obtain ⟨stored, json, old, hstored, hjson, hold, hhash, hdecode, hdata⟩ := hmake
      have hjson' : (stoppedAfter blake3 zstd codec n b files artifact process).lookup (metadataFile hash) =
          some json := by
        rw [show metadataFile hash = CasFile.metadata.path hash from rfl,
          stoppedAfter_lookup hprepare hn files process hvalid .metadata, if_neg (fun h => by cases h.2.1)]
        exact hjson
      have hstored' : (stoppedAfter blake3 zstd codec n b files artifact process).lookup (dataFile hash) =
          if 2 ≤ n ∧ CasFile.data = .data ∧ hash = artifact.hash then some dataToStore
          else files.lookup (dataFile hash) :=
        stoppedAfter_lookup hprepare hn files process hvalid .data
      split at hstored'
      · rename_i hreplaced
        obtain ⟨_, _, hsame⟩ := hreplaced
        subst hsame
        refine ⟨dataToStore, json, old, hstored', hjson', hold, hhash, ?_, hdata⟩
        exact hkeeps _ _ _ _ hprepare json old data hjson hold
          ⟨hvalid, stored, json, old, hstored, hjson, hold, hhash, hdecode, hdata⟩
      · exact ⟨stored, json, old, hstored'.trans hstored, hjson', hold, hhash, hdecode, hdata⟩

/-- A store without compression has the sample data. A process that stores it with compression stops
before it has written the description, and the data cannot be read any more. -/
theorem not_retrievable_stopped :
    ∃ files, StoredOnly sampleBlake3 sampleZstd (.ofTable sampleDescriptions) files ∧
      Retrievable sampleBlake3 sampleZstd (.ofTable sampleDescriptions) files sampleHash sampleData ∧
      ¬ Retrievable sampleBlake3 sampleZstd (.ofTable sampleDescriptions)
        (stoppedAfter sampleBlake3 sampleZstd (.ofTable sampleDescriptions) 2 ⟨.zstd⟩ files
          sampleArtifact 1) sampleHash sampleData := by
  have hvalid : validateHash sampleHash.str = .ok () := by decide
  have hok : (store sampleBlake3 sampleZstd (.ofTable sampleDescriptions) ⟨.none⟩ ∅ sampleArtifact
      ⟨1, none, none, none⟩).1 = .ok () := by
    decide
  have hprepare : prepare sampleBlake3 sampleZstd ⟨.zstd⟩ sampleArtifact none =
      .ok (dataFile sampleHash, metadataFile sampleHash,
        0x28 :: 0xB5 :: 0x2F :: 0xFD :: sampleData,
        sampleMetadata.withCompression (.ofNat (0x28 :: 0xB5 :: 0x2F :: 0xFD :: sampleData).length) "zstd") :=
    (prepare_ok_iff _ _ _ _ _ _).mpr ⟨rfl, hvalid, rfl, rfl, rfl, rfl⟩
  obtain ⟨_, _, stored, metadata, hencode, hstored, hjson⟩ :=
    store_ok sampleBlake3 sampleZstd (.ofTable sampleDescriptions) hok
  cases hencode
  refine ⟨_, .store .empty ⟨.none⟩ _ _ hok, ?_, fun hread => ?_⟩
  · exact (retrievable_iff _ _ _ _ _ _).mpr ⟨hvalid, sampleData, _, sampleMetadata, hstored, hjson,
      JsonCodec.fromSlice_toVec _ _, rfl, rfl, rfl⟩
  · obtain ⟨_, stored, json, old, hstored', hjson', hold, _, hdecode, _⟩ :=
      (retrievable_iff _ _ _ _ _ _).mp hread
    rw [show dataFile sampleHash = CasFile.data.path sampleHash from rfl,
      stoppedAfter_lookup hprepare (by decide) _ 1 hvalid .data, if_pos ⟨Nat.le_refl 2, rfl, rfl⟩]
      at hstored'
    rw [show metadataFile sampleHash = CasFile.metadata.path sampleHash from rfl,
      stoppedAfter_lookup hprepare (by decide) _ 1 hvalid .metadata, if_neg (fun h => by cases h.2.1)]
      at hjson'
    cases hstored'
    cases hjson.symm.trans hjson'
    rw [JsonCodec.fromSlice_toVec] at hold
    cases hold
    have hlength := congrArg List.length (Except.ok.inj hdecode)
    simp only [List.length_cons] at hlength
    omega

end Forge.Cas.LocalCasBackend
