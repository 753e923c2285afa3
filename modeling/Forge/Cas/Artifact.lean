import Forge.Common.Files
import Forge.Common.JsonCodec

/-!
# Artifacts

Data that is addressed by its hash, with a description of it. A hash is a string: the code
writes 32 bytes as lower case hexadecimal digits, and takes any 64 hexadecimal digits for one
where it is used as the name of a file. Times are Unix times in seconds.
-/

namespace Forge.Cas

open Forge.Common

/-- The hash of an artifact. -/
structure ArtifactHash where
  str : String
  deriving DecidableEq, Repr

/-- The description of an artifact. -/
structure ArtifactMetadata where
  hash : ArtifactHash
  size : UInt64
  compressedSize : Option UInt64
  compression : Option String
  timestamp : ℤ
  lastAccessed : Option ℤ
  artifactType : String
  source : String
  tags : List String
  deriving DecidableEq, Repr

/-- An artifact. -/
structure Artifact where
  metadata : ArtifactMetadata
  data : Bytes
  originalPath : Option String
  deriving DecidableEq, Repr

/-- The errors of the store. -/
inductive CasError where
  | io (message : String)
  | serialization (message : String)
  | compression (message : String)
  | artifactNotFound (hash : String)
  | backendError (message : String)
  | config (message : String)
  | hash (message : String)
  | network (message : String)
  | quotaExceeded (message : String)
  deriving DecidableEq, Repr

/-- The declared hash of an artifact. -/
def Artifact.hash (artifact : Artifact) : ArtifactHash := artifact.metadata.hash

/-- Describe an artifact as compressed. -/
def ArtifactMetadata.withCompression (metadata : ArtifactMetadata) (compressedSize : UInt64)
    (algorithm : String) : ArtifactMetadata :=
  { metadata with compressedSize := some compressedSize, compression := some algorithm }

/-- How descriptions are written to files and sent. -/
abbrev MetadataCodec := JsonCodec ArtifactMetadata

instance : Encodable ArtifactMetadata :=
  Encodable.ofLeftInjection
    (fun m => (m.hash.str, m.size.toNat, m.compressedSize.map UInt64.toNat, m.compression, m.timestamp,
      m.lastAccessed, m.artifactType, m.source, m.tags))
    (fun (hash, size, compressedSize, compression, timestamp, lastAccessed, artifactType, source, tags) =>
      some ⟨⟨hash⟩, .ofNat size, compressedSize.map .ofNat, compression, timestamp, lastAccessed,
        artifactType, source, tags⟩)
    (fun m => by
      have hsize : UInt64.ofNat ∘ UInt64.toNat = id := funext fun size => UInt64.ofNat_toNat
      simp only [UInt64.ofNat_toNat, Option.map_map, hsize, Option.map_id, id])

/-! ## A sample -/

/-- The hash of no data. -/
def emptyHash : ArtifactHash := ⟨"af1349b9f5f9a1a6a0404dea36dcc9499bcb25c9adc112b7cc9a93cae41f3262"⟩

/-- Some data. -/
def sampleData : Bytes := utf8Bytes "artifact"

/-- The hash of the sample data. -/
def sampleHash : ArtifactHash := ⟨"e068dc010bf492707f7e8d896457770f24703784cfe76bd785f8b76cc010bbf3"⟩

/-- A function with the right hashes of no data and of the sample data. -/
def sampleBlake3 (data : Bytes) : ArtifactHash := if data = sampleData then sampleHash else emptyHash

/-- The description of the sample data. -/
def sampleMetadata : ArtifactMetadata :=
  ⟨sampleHash, 8, none, none, 0, none, "binary", "test", []⟩

/-- The sample data with its description. -/
def sampleArtifact : Artifact := ⟨sampleMetadata, sampleData, none⟩

/-- The description of the sample data after it was read from a compressing store. -/
def compressedMetadata : ArtifactMetadata := sampleMetadata.withCompression 17 "zstd"

/-- The two descriptions as they are written to files. -/
def sampleDescriptions : JsonCodec.Table ArtifactMetadata where
  known :=
    [(sampleMetadata, "\x7b\"hash\":\"" ++ sampleHash.str ++ "\",\"size\":8,\"compressed_size\":null," ++
        "\"compression\":null,\"timestamp\":0,\"last_accessed\":null,\"artifact_type\":\"binary\"," ++
        "\"source\":\"test\",\"tags\":[]\x7d"),
      (compressedMetadata, "\x7b\"hash\":\"" ++ sampleHash.str ++ "\",\"size\":8,\"compressed_size\":17," ++
        "\"compression\":\"zstd\",\"timestamp\":0,\"last_accessed\":null,\"artifact_type\":\"binary\"," ++
        "\"source\":\"test\",\"tags\":[]\x7d")]
  texts_nodup := by decide +kernel
  nonzero := by decide +kernel

end Forge.Cas
