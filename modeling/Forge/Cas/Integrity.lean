import Forge.Cas.HybridBackend

/-!
# Integrity of what is read

The local store checks data and description against the hash that was asked for. The remote
store takes both as the server gives them. A local store before a remote one checks what it
keeps only against the hash in the description that came with it, so it hands on another
artifact than the one that was asked for if the server sends one.
-/

namespace Forge.Cas

open Forge.Common

variable {σ : Type} (blake3 : Bytes → ArtifactHash) (zstd : Zstd) (codec : MetadataCodec)

/-- What was read carries the hash that was asked for, in its data and in its description. -/
def Verified (hash : ArtifactHash) (result : Except CasError Artifact) : Prop :=
  ∀ artifact, result = .ok artifact → blake3 artifact.data = hash ∧ artifact.metadata.hash = hash

namespace RemoteCasBackendImpl

/-- The server answers for a hash with a description and with data. -/
def Answers (remote : RemoteCasBackendImpl σ) (s : σ) (hash : ArtifactHash)
    (metadata : ArtifactMetadata) (data : Bytes) : Prop :=
  ∃ response s' response' t,
    remote.send (remote.request .get (remote.metadataUrl hash)) s = (.ok response, s') ∧
      metadataOf codec remote hash response = .ok metadata ∧
      remote.send (remote.request .get (remote.artifactUrl hash)) s' = (.ok response', t) ∧
      dataOf zstd hash metadata response' = .ok data

/-- Reading from the server gives what it answers. -/
theorem download_eq_ok_iff_answers {remote : RemoteCasBackendImpl σ} {s : σ} {hash : ArtifactHash}
    {artifact : Artifact} :
    (∃ t, download zstd codec remote hash s = (.ok artifact, t)) ↔
      Answers zstd codec remote s hash artifact.metadata artifact.data ∧ artifact.originalPath = none := by
  simp only [download_eq_ok_iff, metadata_eq_ok_iff]
  constructor
  · intro h
    obtain ⟨t, metadata, s', response', ⟨response, hsend, hmetadata⟩, hsend', hdata, hartifact⟩ := h
    have hdescribed : artifact.metadata = metadata := by rw [hartifact]
    subst hdescribed
    exact ⟨⟨response, s', response', t, hsend, hmetadata, hsend', hdata⟩, by rw [hartifact]⟩
  · intro h
    obtain ⟨⟨response, s', response', t, hsend, hmetadata, hsend', hdata⟩, hpath⟩ := h
    exact ⟨t, artifact.metadata, s', response', ⟨response, hsend, hmetadata⟩, hsend', hdata, by
      rw [← hpath]⟩

/-- What the server answers for a hash carries it, in the data and in the description. -/
def Authentic (remote : RemoteCasBackendImpl σ) (s : σ) (hash : ArtifactHash) : Prop :=
  ∀ metadata data, Answers zstd codec remote s hash metadata data →
    blake3 data = hash ∧ metadata.hash = hash

/-- What is read from the server carries the hash exactly when the server is authentic. -/
theorem retrieve_verified_iff (remote : RemoteCasBackendImpl σ) (s : σ) (hash : ArtifactHash) :
    Verified blake3 hash (retrieve zstd codec remote hash s).1 ↔
      Authentic blake3 zstd codec remote s hash := by
  constructor
  · intro hverified metadata data hanswers
    obtain ⟨t, hdownload⟩ : ∃ t, download zstd codec remote hash s = (.ok ⟨metadata, data, none⟩, t) :=
      (download_eq_ok_iff_answers zstd codec).mpr ⟨hanswers, rfl⟩
    exact hverified _ (congrArg Prod.fst hdownload)
  · intro hauthentic artifact hread
    have hdownload : download zstd codec remote hash s =
        (.ok artifact, (download zstd codec remote hash s).2) := by
      rw [← hread]
      rfl
    obtain ⟨hanswers, _⟩ := (download_eq_ok_iff_answers zstd codec).mp ⟨_, hdownload⟩
    exact hauthentic _ _ hanswers

end RemoteCasBackendImpl

/-- What is read from the local store carries the hash. -/
theorem LocalCasBackend.retrieve_verified (files : CasFiles) (hash : ArtifactHash) (io : RetrieveIo) :
    Verified blake3 hash (retrieve blake3 zstd codec files hash io).1 := by
  intro artifact hread
  obtain ⟨data, metadataJson, _, _, hartifact⟩ := retrieve_ok blake3 zstd codec hread
  obtain ⟨metadata, _, _, hverified, hsame⟩ :=
    (readArtifact_ok_iff blake3 zstd codec hash metadataJson data io artifact).mp hartifact
  refine ⟨hverified.1, ?_⟩
  rw [hsame]
  exact hverified.2

/-- An artifact can be stored locally: it carries the hash in its own description, this names
files, it can be encoded, and the file system does not fail. -/
def Storable (b : LocalCasBackend) (metadata : ArtifactMetadata) (data : Bytes) (io : StoreIo) : Prop :=
  (blake3 data = metadata.hash ∧ validateHash metadata.hash.str = .ok () ∧
    ∃ encoded, LocalCasBackend.encode zstd b ⟨metadata, data, none⟩ = .ok encoded) ∧
    io.createDir = none ∧ io.data = none ∧ io.metadata = none

namespace HybridCasBackend

/-- What the server answers for a hash that the local store does not have is described with that
hash, if it can be stored at all. -/
def AuthenticMisses (b : LocalCasBackend) (remote : RemoteCasBackendImpl σ) (s : HybridState σ)
    (hash : ArtifactHash) (storeIo : StoreIo) : Prop :=
  LocalCasBackend.existsArtifact s.files hash = .ok false →
    ∀ metadata data, RemoteCasBackendImpl.Answers zstd codec remote s.server hash metadata data →
      Storable blake3 zstd b metadata data storeIo → metadata.hash = hash

variable (hashes : JsonCodec (List ArtifactHash)) (casStats : JsonCodec CasStats)

/-- What is read from a local store before a remote one carries the hash exactly when the server
is authentic for what the local store does not have. -/
theorem retrieve_verified_iff (b : LocalCasBackend) (remote : RemoteCasBackendImpl σ)
    (s : HybridState σ) (hash : ArtifactHash) (retrieveIo : RetrieveIo) (storeIo : StoreIo) :
    Verified blake3 hash (retrieve blake3 zstd codec
        ⟨b, remote.toRemoteCas zstd codec hashes casStats⟩ s hash retrieveIo storeIo).1 ↔
      AuthenticMisses blake3 zstd codec b remote s hash storeIo := by
  rw [Verified, AuthenticMisses]
  simp only [retrieve_eq_ok_iff, RemoteCasBackendImpl.toRemoteCas,
    RemoteCasBackendImpl.download_eq_ok_iff_answers, LocalCasBackend.store_fst_ok_iff]
  constructor
  · intro hverified hmissing metadata data hanswers hstorable
    exact (hverified ⟨metadata, data, none⟩ (Or.inr ⟨hmissing, ⟨hanswers, rfl⟩, hstorable⟩)).2
  · intro hauthentic artifact hread
    rcases hread with ⟨_, hlocal⟩ | ⟨hmissing, ⟨hanswers, hpath⟩, hstorable⟩
    · exact LocalCasBackend.retrieve_verified blake3 zstd codec s.files hash retrieveIo artifact hlocal
    · obtain ⟨metadata, data, originalPath⟩ := artifact
      cases hpath
      have hhash := hauthentic hmissing metadata data hanswers hstorable
      exact ⟨hstorable.1.1.trans hhash, hhash⟩

end HybridCasBackend

/-- Reading from the local store is always checked. Reading from the server, and reading from the
local store before it, is checked exactly when the server is authentic. -/
theorem retrieve_verified_iff_authentic (hashes : JsonCodec (List ArtifactHash))
    (casStats : JsonCodec CasStats) (b : LocalCasBackend) (remote : RemoteCasBackendImpl σ)
    (s : HybridState σ) (hash : ArtifactHash) (retrieveIo : RetrieveIo) (storeIo : StoreIo) :
    Verified blake3 hash (LocalCasBackend.retrieve blake3 zstd codec s.files hash retrieveIo).1 ∧
      (Verified blake3 hash (remote.retrieve zstd codec hash s.server).1 ↔
        remote.Authentic blake3 zstd codec s.server hash) ∧
      (Verified blake3 hash (HybridCasBackend.retrieve blake3 zstd codec
          ⟨b, remote.toRemoteCas zstd codec hashes casStats⟩ s hash retrieveIo storeIo).1 ↔
        HybridCasBackend.AuthenticMisses blake3 zstd codec b remote s hash storeIo) :=
  ⟨LocalCasBackend.retrieve_verified blake3 zstd codec s.files hash retrieveIo,
    RemoteCasBackendImpl.retrieve_verified_iff blake3 zstd codec remote s.server hash,
    HybridCasBackend.retrieve_verified_iff blake3 zstd codec hashes casStats b remote s hash
      retrieveIo storeIo⟩

/-- A server that has one artifact and answers with it whatever it is asked for. -/
def oneArtifactServer : HttpClient Unit where
  send request s :=
    if request.url.toList.reverse.take 9 = "/metadata".toList.reverse then
      (.ok ⟨⟨200, "OK"⟩, .ok ((JsonCodec.ofTable sampleDescriptions).toVec sampleMetadata)⟩, s)
    else (.ok ⟨⟨200, "OK"⟩, .ok sampleData⟩, s)
  decodeError e := "error decoding response body: " ++ e

/-- A remote store with that server. -/
def oneArtifactRemote : RemoteCasBackendImpl Unit :=
  ⟨oneArtifactServer, ⟨"https://cas.example.com/api/v1", none, "fish-cache"⟩, .none⟩

/-- Asked for the artifact without data, the remote store reads the one artifact of the server. -/
theorem not_verified_otherArtifact :
    ¬ Verified sampleBlake3 emptyHash (oneArtifactRemote.retrieve sampleZstd
        (.ofTable sampleDescriptions) emptyHash ()).1 := by
  intro hverified
  have hread : (oneArtifactRemote.retrieve sampleZstd (.ofTable sampleDescriptions) emptyHash ()).1 =
      .ok ⟨sampleMetadata, sampleData, none⟩ := by
    decide +kernel
  obtain ⟨_, hhash⟩ := hverified _ hread
  revert hhash
  decide

end Forge.Cas
