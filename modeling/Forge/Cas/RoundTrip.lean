import Forge.Cas.LocalBackend

/-!
# Reading back what was stored

A compressing store writes its algorithm into the description of an artifact, and reads the
data back with it. A store without compression keeps the description it was given. If that
names an algorithm, because the artifact was read from a compressing store before, the plain
data is decompressed when it is read.
-/

namespace Forge.Cas.LocalCasBackend

open Forge.Common

variable (blake3 : Bytes → ArtifactHash) (zstd : Zstd) (codec : MetadataCodec)

/-- A store reads an artifact back: after storing it succeeded, reading it gives its data. -/
def ReadsBack (b : LocalCasBackend) (files : CasFiles) (artifact : Artifact) (io : StoreIo)
    (now : ℤ) (touch : Option (Option Bytes)) : Prop :=
  ∃ read, (retrieve blake3 zstd codec (store blake3 zstd codec b files artifact io).2 artifact.hash
    ⟨none, none, now, touch⟩).1 = .ok read ∧ read.data = artifact.data

/-- The condition on an artifact and a store: the store compresses, or the algorithm that the
description of the artifact already names leaves the plain data as it is. -/
def KeepsReadable (b : LocalCasBackend) (artifact : Artifact) : Prop :=
  b.compression ≠ .none ∨ ∀ tag, artifact.metadata.compression = some tag →
    ∀ algorithm, CompressionAlgorithm.fromStr tag = .ok algorithm → algorithm ≠ .none →
      zstd.decodeAll artifact.data = .ok artifact.data

/-- What a store writes decodes to the data of the artifact exactly under the condition, and its
description carries the hash of the artifact. -/
theorem decodeStored_encode_iff {b : LocalCasBackend} {artifact : Artifact} {dataToStore : Bytes}
    {metadata : ArtifactMetadata} (hencode : encode zstd b artifact = .ok (dataToStore, metadata)) :
    metadata.hash = artifact.hash ∧
      (decodeStored zstd metadata dataToStore = .ok artifact.data ↔ KeepsReadable zstd b artifact) := by
  rw [encode] at hencode
  by_cases hcompression : b.compression ≠ .none
  · rw [if_pos hcompression, bind_eq_ok_iff] at hencode
    obtain ⟨compressed, hcompress, hencoded⟩ := hencode
    cases hencoded
    refine ⟨rfl, iff_of_true ?_ (Or.inl hcompression)⟩
    rw [decodeStored, ArtifactMetadata.withCompression]
    simp only [CompressionAlgorithm.fromStr_asStr]
    exact decompress_compress zstd hcompress
  · rw [if_neg hcompression] at hencode
    cases hencode
    refine ⟨rfl, ?_⟩
    rw [decodeStored, KeepsReadable, or_iff_right hcompression]
    cases htag : artifact.metadata.compression with
    | none => exact iff_of_true rfl nofun
    | some tag =>
      simp only [Option.some.injEq, forall_eq']
      cases CompressionAlgorithm.fromStr tag with
      | error e => exact iff_of_true rfl nofun
      | ok algorithm =>
        simp only [Except.ok.injEq, forall_eq']
        exact decompress_eq_self_iff zstd artifact.data algorithm

/-- An artifact that was stored reads back exactly when the store compresses or the algorithm
that its description already names leaves the plain data as it is. -/
theorem readsBack_iff_keepsReadable (b : LocalCasBackend) (files : CasFiles) (artifact : Artifact)
    (io : StoreIo) (now : ℤ) (touch : Option (Option Bytes))
    (hstore : (store blake3 zstd codec b files artifact io).1 = .ok ()) :
    ReadsBack blake3 zstd codec b files artifact io now touch ↔ KeepsReadable zstd b artifact := by
  obtain ⟨hhash, hvalid, dataToStore, metadata, hencode, hdata, hmetadata⟩ :=
    store_ok blake3 zstd codec hstore
  obtain ⟨hdeclared, hdecode⟩ := decodeStored_encode_iff zstd hencode
  rw [ReadsBack, retrieve_fst blake3 zstd codec hvalid hdata hmetadata, ← hdecode]
  have hread : readMetadata codec (codec.toVec metadata) none = .ok metadata :=
    (readMetadata_ok_iff codec _ none metadata).mpr ⟨rfl, codec.fromSlice_toVec metadata⟩
  constructor
  · intro hback
    obtain ⟨read, hok, hsame⟩ := hback
    obtain ⟨metadata', hmetadata', hdata', _⟩ :=
      (readArtifact_ok_iff blake3 zstd codec _ _ _ _ read).mp hok
    have heq : metadata = metadata' := Except.ok.inj (hread.symm.trans hmetadata')
    rw [heq, ← hsame]
    exact hdata'
  · intro hdecoded
    refine ⟨⟨{ metadata with lastAccessed := some now }, artifact.data, none⟩, ?_, rfl⟩
    exact (readArtifact_ok_iff blake3 zstd codec _ _ _ _ _).mpr
      ⟨metadata, hread, hdecoded, ⟨hhash, hdeclared⟩, rfl⟩

/-- The sample data with the description that a compressing store gave it. -/
def compressedArtifact : Artifact := ⟨compressedMetadata, sampleData, none⟩

/-- An artifact that was read from a compressing store does not read back from a store that does
not compress. -/
theorem not_readsBack_after_compression :
    ¬ ((store sampleBlake3 sampleZstd (.ofTable sampleDescriptions) ⟨.none⟩ ∅ compressedArtifact
        ⟨1, none, none, none⟩).1 = .ok () →
      ReadsBack sampleBlake3 sampleZstd (.ofTable sampleDescriptions) ⟨.none⟩ ∅ compressedArtifact
        ⟨1, none, none, none⟩ 0 none) := by
  intro h
  obtain ⟨read, hread, _⟩ := h (by decide)
  have hrefused : (retrieve sampleBlake3 sampleZstd (.ofTable sampleDescriptions)
      (store sampleBlake3 sampleZstd (.ofTable sampleDescriptions) ⟨.none⟩ ∅ compressedArtifact
        ⟨1, none, none, none⟩).2 compressedArtifact.hash ⟨none, none, 0, none⟩).1 =
      .error (.compression "Zstd decompression failed: Unknown frame descriptor") := by
    decide +kernel
  rw [hrefused] at hread
  cases hread

/-- Whether the sample artifact reads back from a store that compresses. -/
theorem readsBack_iff_keepsReadable_compressed :
    ReadsBack sampleBlake3 sampleZstd (.ofTable sampleDescriptions) ⟨.zstd⟩ ∅ compressedArtifact
        ⟨1, none, none, none⟩ 0 none ↔
      KeepsReadable sampleZstd ⟨.zstd⟩ compressedArtifact :=
  readsBack_iff_keepsReadable sampleBlake3 sampleZstd (.ofTable sampleDescriptions) ⟨.zstd⟩ ∅
    compressedArtifact ⟨1, none, none, none⟩ 0 none (by decide)

end Forge.Cas.LocalCasBackend
