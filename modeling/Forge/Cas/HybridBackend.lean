import Forge.Cas.LocalBackend
import Forge.Cas.RemoteBackend
import Forge.Cas.StoredFiles
import Mathlib.Data.List.Destutter
import Mathlib.Data.List.Sort
import Mathlib.Data.String.Basic

/-!
# A local store before a remote one

What is read from the remote store is kept in the local one, under the hash that its
description names. The remote store is any implementation of the operations.
-/

namespace Forge.Cas

open Forge.Common

/-- The operations of a remote store. -/
structure RemoteCas (σ : Type) where
  upload : Artifact → RemoteM σ Unit
  download : ArtifactHash → RemoteM σ Artifact
  metadata : ArtifactHash → RemoteM σ ArtifactMetadata
  existsArtifact : ArtifactHash → RemoteM σ Bool
  delete : ArtifactHash → RemoteM σ Unit
  list : RemoteM σ (List ArtifactHash)
  stats : RemoteM σ CasStats

/-- The operations of a remote store that is asked over HTTP. -/
def RemoteCasBackendImpl.toRemoteCas {σ : Type} (zstd : Zstd) (codec : MetadataCodec)
    (hashes : JsonCodec (List ArtifactHash)) (casStats : JsonCodec CasStats)
    (remote : RemoteCasBackendImpl σ) : RemoteCas σ where
  upload := remote.upload zstd codec
  download := remote.download zstd codec
  metadata := remote.metadata codec
  existsArtifact := remote.existsArtifact
  delete := remote.delete
  list := remote.list hashes
  stats := remote.stats casStats

/-- A local store before a remote one. -/
structure HybridCasBackend (σ : Type) where
  localStore : LocalCasBackend
  remote : RemoteCas σ

/-- The files of the local store and the state of the remote one. -/
structure HybridState (σ : Type) where
  files : CasFiles
  server : σ

namespace HybridCasBackend

variable {σ : Type} (blake3 : Bytes → ArtifactHash) (zstd : Zstd) (codec : MetadataCodec)

/-- Store an artifact in the local store and then in the remote one. -/
def store (hybrid : HybridCasBackend σ) (s : HybridState σ) (artifact : Artifact) (io : StoreIo) :
    Except CasError Unit × HybridState σ :=
  match hybrid.localStore.store blake3 zstd codec s.files artifact io with
  | (.error e, files) => (.error e, ⟨files, s.server⟩)
  | (.ok (), files) =>
    match hybrid.remote.upload artifact s.server with
    | (result, server) => (result, ⟨files, server⟩)

/-- Read an artifact from the local store, or from the remote one, and then keep it in the local
one. -/
def retrieve (hybrid : HybridCasBackend σ) (s : HybridState σ) (hash : ArtifactHash)
    (retrieveIo : RetrieveIo) (storeIo : StoreIo) : Except CasError Artifact × HybridState σ :=
  match LocalCasBackend.existsArtifact s.files hash with
  | .error e => (.error e, s)
  | .ok true =>
    match LocalCasBackend.retrieve blake3 zstd codec s.files hash retrieveIo with
    | (result, files) => (result, ⟨files, s.server⟩)
  | .ok false =>
    match hybrid.remote.download hash s.server with
    | (.error e, server) => (.error e, ⟨s.files, server⟩)
    | (.ok artifact, server) =>
      match hybrid.localStore.store blake3 zstd codec s.files artifact storeIo with
      | (.error e, files) => (.error e, ⟨files, server⟩)
      | (.ok (), files) => (.ok artifact, ⟨files, server⟩)

/-- An artifact is read from the local store, which has it, or comes from the remote store and
could be stored in the local one. -/
theorem retrieve_eq_ok_iff {hybrid : HybridCasBackend σ} {s : HybridState σ} {hash : ArtifactHash}
    {retrieveIo : RetrieveIo} {storeIo : StoreIo} {artifact : Artifact} :
    (retrieve blake3 zstd codec hybrid s hash retrieveIo storeIo).1 = .ok artifact ↔
      (LocalCasBackend.existsArtifact s.files hash = .ok true ∧
        (LocalCasBackend.retrieve blake3 zstd codec s.files hash retrieveIo).1 = .ok artifact) ∨
      (LocalCasBackend.existsArtifact s.files hash = .ok false ∧
        (∃ server, hybrid.remote.download hash s.server = (.ok artifact, server)) ∧
        (hybrid.localStore.store blake3 zstd codec s.files artifact storeIo).1 = .ok ()) := by
  rw [retrieve]
  cases LocalCasBackend.existsArtifact s.files hash with
  | error e => exact iff_of_false nofun (by simp only [reduceCtorEq, false_and, or_self, not_false_eq_true])
  | ok held =>
    cases held with
    | true => simp only [Except.ok.injEq, reduceCtorEq, true_and, false_and, or_false]
    | false =>
      simp only [Except.ok.injEq, reduceCtorEq, true_and, false_and, false_or]
      cases hdownload : hybrid.remote.download hash s.server with
      | mk result server =>
        cases result with
        | error e =>
          refine iff_of_false nofun fun h => ?_
          obtain ⟨⟨_, hfound⟩, _⟩ := h
          cases hfound
        | ok found =>
          dsimp only
          cases hstore : hybrid.localStore.store blake3 zstd codec s.files found storeIo with
          | mk stored files =>
            cases stored with
            | error e =>
              refine iff_of_false nofun fun h => ?_
              obtain ⟨⟨_, hfound⟩, hok⟩ := h
              cases hfound
              rw [hstore] at hok
              cases hok
            | ok =>
              constructor
              · intro h
                cases h
                exact ⟨⟨server, rfl⟩, congrArg Prod.fst hstore⟩
              · intro h
                obtain ⟨⟨_, hfound⟩, _⟩ := h
                cases hfound
                rfl

end HybridCasBackend

/-!
## What a local store before a remote one lists

The lists of both stores are put together without duplicates. What is known about both is
added up. The remote store is taken to be correct where this is said: it holds what was
uploaded to it until this is deleted.
-/

/-- Hashes in the order of their strings. -/
instance : LinearOrder ArtifactHash :=
  LinearOrder.lift' ArtifactHash.str fun hash hash' heq => by
    cases hash
    cases hash'
    exact congrArg ArtifactHash.mk heq

namespace HybridCasBackend

variable {σ : Type} (readDir : ReadDir) (codec : MetadataCodec)

/-- Read a description, from the local store if it has the artifact. -/
def metadata (hybrid : HybridCasBackend σ) (s : HybridState σ) (hash : ArtifactHash) :
    Except CasError ArtifactMetadata × HybridState σ :=
  match LocalCasBackend.existsArtifact s.files hash with
  | .error e => (.error e, s)
  | .ok true => (LocalCasBackend.metadata codec s.files hash, s)
  | .ok false =>
    match hybrid.remote.metadata hash s.server with
    | (result, server) => (result, ⟨s.files, server⟩)

/-- Whether one of the stores has an artifact. -/
def existsArtifact (hybrid : HybridCasBackend σ) (s : HybridState σ) (hash : ArtifactHash) :
    Except CasError Bool × HybridState σ :=
  match LocalCasBackend.existsArtifact s.files hash with
  | .error e => (.error e, s)
  | .ok true => (.ok true, s)
  | .ok false =>
    match hybrid.remote.existsArtifact hash s.server with
    | (result, server) => (result, ⟨s.files, server⟩)

/-- Delete an artifact in both stores. -/
def delete (hybrid : HybridCasBackend σ) (s : HybridState σ) (hash : ArtifactHash) (io : DeleteIo) :
    Except CasError Unit × HybridState σ :=
  match LocalCasBackend.delete s.files hash io with
  | (.error e, files) => (.error e, ⟨files, s.server⟩)
  | (.ok (), files) =>
    match hybrid.remote.delete hash s.server with
    | (result, server) => (result, ⟨files, server⟩)

/-- The hashes of both stores. -/
def list (hybrid : HybridCasBackend σ) (s : HybridState σ) :
    Except CasError (List ArtifactHash) × HybridState σ :=
  let localHashes := LocalCasBackend.list readDir s.files
  match hybrid.remote.list s.server with
  | (.error e, server) => (.error e, ⟨s.files, server⟩)
  | (.ok remoteHashes, server) =>
    (.ok (((localHashes ++ remoteHashes).insertionSort (· ≤ ·)).destutter (· ≠ ·)), ⟨s.files, server⟩)

/-- What is known about both stores, added up. -/
def stats (hybrid : HybridCasBackend σ) (s : HybridState σ) : Except CasError CasStats × HybridState σ :=
  let localStats := LocalCasBackend.stats readDir codec s.files
  match hybrid.remote.stats s.server with
  | (.error e, server) => (.error e, ⟨s.files, server⟩)
  | (.ok remoteStats, server) =>
    (.ok ⟨localStats.artifactCount + remoteStats.artifactCount,
      localStats.totalBytes + remoteStats.totalBytes,
      localStats.compressedBytes + remoteStats.compressedBytes, "hybrid"⟩, ⟨s.files, server⟩)

end HybridCasBackend

/-- A remote store holds what was uploaded to it, and answers accordingly. It may describe the
artifacts in its own way, but keeps their data, hashes and sizes. -/
structure RemoteCas.Correct {σ : Type} (remote : RemoteCas σ) (held : σ → ArtifactHash → Option Artifact) :
    Prop where
  upload : ∀ artifact s, (remote.upload artifact s).1 = .ok () ∧ ∃ stored : Artifact,
    stored.data = artifact.data ∧ stored.metadata.hash = artifact.metadata.hash ∧
      stored.metadata.size = artifact.metadata.size ∧
      held (remote.upload artifact s).2 = Function.update (held s) artifact.hash (some stored)
  download : ∀ hash s, (remote.download hash s).1.toOption = held s hash ∧
    held (remote.download hash s).2 = held s
  metadata : ∀ hash s, (remote.metadata hash s).1.toOption = (held s hash).map Artifact.metadata ∧
    held (remote.metadata hash s).2 = held s
  existsArtifact : ∀ hash s, (remote.existsArtifact hash s).1 = .ok (held s hash).isSome ∧
    held (remote.existsArtifact hash s).2 = held s
  delete : ∀ hash s, (remote.delete hash s).1 = .ok () ∧
    held (remote.delete hash s).2 = Function.update (held s) hash none
  list : ∀ s, ∃ hashes, (remote.list s).1 = .ok hashes ∧ hashes.Nodup ∧
    (∀ hash, hash ∈ hashes ↔ (held s hash).isSome) ∧ held (remote.list s).2 = held s
  stats : ∀ s, ∃ stats, (remote.stats s).1 = .ok stats ∧ held (remote.stats s).2 = held s ∧
    ∀ hashes : List ArtifactHash, hashes.Nodup → (∀ hash, hash ∈ hashes ↔ (held s hash).isSome) →
      stats.artifactCount = hashes.length ∧ stats.totalBytes.toNat =
        (hashes.map fun hash => ((held s hash).map fun artifact => artifact.metadata.size.toNat).getD 0).sum %
          2 ^ 64

/-- The list of both stores has what either list has. -/
theorem sorted_destutter_eq_dedup (hashes : List ArtifactHash) :
    (hashes.insertionSort (· ≤ ·)).destutter (· ≠ ·) = (hashes.insertionSort (· ≤ ·)).dedup :=
  (List.pairwise_insertionSort (· ≤ ·) hashes).destutter_eq_dedup

end Forge.Cas
