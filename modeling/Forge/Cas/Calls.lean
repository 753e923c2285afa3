import Forge.Cas.Statistics

/-!
# Calls of a store

Calls store, read and delete artifacts, one after another, and the file system may fail in any of
them. The statistics of a local store describe what it lists as long as no artifact loses its
description. A local store before a remote one counts twice what both have.
-/

namespace Forge.Cas

open Forge.Common

/-- A call of a local store, and what the file system does meanwhile. -/
inductive CasCall where
  | store (artifact : Artifact) (io : StoreIo)
  | retrieve (hash : ArtifactHash) (io : RetrieveIo)
  | delete (hash : ArtifactHash) (io : DeleteIo)

/-- The file system does not fail to write a description. -/
def CasCall.KeepsDescriptions : CasCall → Prop
  | .store _ io => io.metadata = none
  | .retrieve _ io => io.touch = none
  | .delete _ _ => True

/-- A call of a local store before a remote one. An artifact that is read can be stored, too. -/
inductive HybridCall where
  | store (artifact : Artifact) (io : StoreIo)
  | retrieve (hash : ArtifactHash) (retrieveIo : RetrieveIo) (storeIo : StoreIo)
  | delete (hash : ArtifactHash) (io : DeleteIo)

/-- The file system does not fail to write a description. -/
def HybridCall.KeepsDescriptions : HybridCall → Prop
  | .store _ io => io.metadata = none
  | .retrieve _ retrieveIo storeIo => retrieveIo.touch = none ∧ storeIo.metadata = none
  | .delete _ _ => True

section Calls

variable (blake3 : Bytes → ArtifactHash) (zstd : Zstd) (codec : MetadataCodec)

/-- The files after a call. -/
def LocalCasBackend.call (b : LocalCasBackend) (files : CasFiles) : CasCall → CasFiles
  | .store artifact io => (b.store blake3 zstd codec files artifact io).2
  | .retrieve hash io => (LocalCasBackend.retrieve blake3 zstd codec files hash io).2
  | .delete hash io => (LocalCasBackend.delete files hash io).2

/-- Both stores after a call. -/
def HybridCasBackend.call {σ : Type} (hybrid : HybridCasBackend σ) (s : HybridState σ) :
    HybridCall → HybridState σ
  | .store artifact io => (hybrid.store blake3 zstd codec s artifact io).2
  | .retrieve hash retrieveIo storeIo => (hybrid.retrieve blake3 zstd codec s hash retrieveIo storeIo).2
  | .delete hash io => (hybrid.delete s hash io).2

/-- The files stay well named. -/
theorem WellNamed.calls (b : LocalCasBackend) (calls : List CasCall) {files : CasFiles}
    (hnamed : WellNamed files) : WellNamed (calls.foldl (b.call blake3 zstd codec) files) := by
  refine List.foldlRecOn calls _ hnamed fun files hnamed call _ => ?_
  cases call with
  | store artifact io => exact hnamed.store blake3 zstd codec b artifact io
  | retrieve hash io => exact hnamed.retrieve blake3 zstd codec hash io
  | delete hash io => exact hnamed.delete hash io

/-- All data keeps its description when these are written. -/
theorem Described.calls (b : LocalCasBackend) {calls : List CasCall}
    (hkeeps : ∀ call ∈ calls, call.KeepsDescriptions) {files : CasFiles}
    (hdescribed : Described codec files) :
    Described codec (calls.foldl (b.call blake3 zstd codec) files) := by
  refine List.foldlRecOn calls _ hdescribed fun files hdescribed call hmem => ?_
  have hkeep := hkeeps call hmem
  cases call with
  | store artifact io => exact hdescribed.store blake3 zstd b artifact hkeep
  | retrieve hash io => exact hdescribed.retrieve blake3 zstd hash hkeep
  | delete hash io => exact hdescribed.delete hash io

/-! ## Both stores -/

namespace HybridCasBackend

variable {σ : Type} {held : σ → ArtifactHash → Option Artifact} {hybrid : HybridCasBackend σ}
  {s : HybridState σ}

/-- The files after storing an artifact are those of the local store. What the remote store has is
as before, or the artifact was stored and is there. -/
theorem store_state (hcorrect : hybrid.remote.Correct held) (s : HybridState σ) (artifact : Artifact)
    (io : StoreIo) :
    (hybrid.store blake3 zstd codec s artifact io).2.files =
        (hybrid.localStore.store blake3 zstd codec s.files artifact io).2 ∧
      (held (hybrid.store blake3 zstd codec s artifact io).2.server = held s.server ∨
        (hybrid.localStore.store blake3 zstd codec s.files artifact io).1 = .ok () ∧
        ∃ stored, held (hybrid.store blake3 zstd codec s artifact io).2.server =
          Function.update (held s.server) artifact.hash (some stored)) := by
  rw [store]
  cases hstore : hybrid.localStore.store blake3 zstd codec s.files artifact io with
  | mk result files =>
    cases result with
    | error e => exact ⟨rfl, Or.inl rfl⟩
    | ok =>
      obtain ⟨_, stored, _, _, _, hheld⟩ := hcorrect.upload artifact s.server
      cases hupload : hybrid.remote.upload artifact s.server with
      | mk result server =>
        rw [hupload] at hheld
        exact ⟨rfl, Or.inr ⟨rfl, stored, hheld⟩⟩

/-- The files after reading are those after reading in the local store or after storing what the
remote one has, and this does not change. -/
theorem retrieve_state (hcorrect : hybrid.remote.Correct held) (s : HybridState σ) (hash : ArtifactHash)
    (retrieveIo : RetrieveIo) (storeIo : StoreIo) :
    held (hybrid.retrieve blake3 zstd codec s hash retrieveIo storeIo).2.server = held s.server ∧
      ((hybrid.retrieve blake3 zstd codec s hash retrieveIo storeIo).2.files = s.files ∨
        (hybrid.retrieve blake3 zstd codec s hash retrieveIo storeIo).2.files =
          (LocalCasBackend.retrieve blake3 zstd codec s.files hash retrieveIo).2 ∨
        ∃ artifact, (hybrid.retrieve blake3 zstd codec s hash retrieveIo storeIo).2.files =
          (hybrid.localStore.store blake3 zstd codec s.files artifact storeIo).2) := by
  rw [retrieve]
  cases LocalCasBackend.existsArtifact s.files hash with
  | error e => exact ⟨rfl, Or.inl rfl⟩
  | ok present =>
    cases present with
    | true => exact ⟨rfl, Or.inr (Or.inl rfl)⟩
    | false =>
      have hheld := (hcorrect.download hash s.server).2
      cases hdownload : hybrid.remote.download hash s.server with
      | mk result server =>
        rw [hdownload] at hheld
        cases result with
        | error e => exact ⟨hheld, Or.inl rfl⟩
        | ok artifact =>
          dsimp only
          cases hstore : hybrid.localStore.store blake3 zstd codec s.files artifact storeIo with
          | mk result files =>
            cases result with
            | error e => exact ⟨hheld, Or.inr (Or.inr ⟨artifact, (congrArg Prod.snd hstore).symm⟩)⟩
            | ok => exact ⟨hheld, Or.inr (Or.inr ⟨artifact, (congrArg Prod.snd hstore).symm⟩)⟩

/-- The files after deleting are those of the local store. What the remote store has is as before,
or without the hash. -/
theorem delete_state (hcorrect : hybrid.remote.Correct held) (s : HybridState σ) (hash : ArtifactHash)
    (io : DeleteIo) :
    (hybrid.delete s hash io).2.files = (LocalCasBackend.delete s.files hash io).2 ∧
      (held (hybrid.delete s hash io).2.server = held s.server ∨
        held (hybrid.delete s hash io).2.server = Function.update (held s.server) hash none) := by
  rw [delete]
  cases hdelete : LocalCasBackend.delete s.files hash io with
  | mk result files =>
    cases result with
    | error e => exact ⟨rfl, Or.inl rfl⟩
    | ok =>
      have hheld := (hcorrect.delete hash s.server).2
      cases hremote : hybrid.remote.delete hash s.server with
      | mk result server =>
        rw [hremote] at hheld
        exact ⟨rfl, Or.inr hheld⟩

/-- A call keeps the files well named and the hashes in the remote store valid. -/
theorem Sound.call (hcorrect : hybrid.remote.Correct held) (hsound : Sound held s) (call : HybridCall) :
    Sound held (hybrid.call blake3 zstd codec s call) := by
  cases call with
  | store artifact io =>
    obtain ⟨hfiles, hheld⟩ := store_state blake3 zstd codec hcorrect s artifact io
    refine ⟨?_, fun hash hsome => ?_⟩
    · rw [HybridCasBackend.call, hfiles]
      exact hsound.named.store blake3 zstd codec hybrid.localStore artifact io
    · rw [HybridCasBackend.call] at hsome
      rcases hheld with hheld | ⟨hok, stored, hheld⟩
      · exact hsound.valid hash (hheld ▸ hsome)
      · rw [hheld] at hsome
        by_cases heq : hash = artifact.hash
        · rw [heq]
          exact ((LocalCasBackend.store_fst_ok_iff blake3 zstd codec _ _ _ _).mp hok).1.2.1
        · rw [Function.update_of_ne heq] at hsome
          exact hsound.valid hash hsome
  | retrieve hash retrieveIo storeIo =>
    obtain ⟨hheld, hfiles⟩ := retrieve_state blake3 zstd codec hcorrect s hash retrieveIo storeIo
    refine ⟨?_, fun hash' hsome => hsound.valid hash' (hheld ▸ hsome)⟩
    rw [HybridCasBackend.call]
    rcases hfiles with hfiles | hfiles | ⟨artifact, hfiles⟩
    · rw [hfiles]
      exact hsound.named
    · rw [hfiles]
      exact hsound.named.retrieve blake3 zstd codec hash retrieveIo
    · rw [hfiles]
      exact hsound.named.store blake3 zstd codec hybrid.localStore artifact storeIo
  | delete hash io =>
    obtain ⟨hfiles, hheld⟩ := delete_state hcorrect s hash io
    refine ⟨?_, fun hash' hsome => ?_⟩
    · rw [HybridCasBackend.call, hfiles]
      exact hsound.named.delete hash io
    · rw [HybridCasBackend.call] at hsome
      rcases hheld with hheld | hheld
      · exact hsound.valid hash' (hheld ▸ hsome)
      · rw [hheld] at hsome
        by_cases heq : hash' = hash
        · rw [heq, Function.update_self] at hsome
          cases hsome
        · rw [Function.update_of_ne heq] at hsome
          exact hsound.valid hash' hsome

/-- All data keeps its description when these are written. -/
theorem described_calls (hcorrect : hybrid.remote.Correct held) {calls : List HybridCall}
    (hkeeps : ∀ call ∈ calls, call.KeepsDescriptions) (hdescribed : Described codec s.files) :
    Described codec (calls.foldl (hybrid.call blake3 zstd codec) s).files := by
  refine List.foldlRecOn (motive := fun s : HybridState σ => Described codec s.files) calls _ hdescribed
    fun s hdescribed call hmem => ?_
  have hkeep := hkeeps call hmem
  cases call with
  | store artifact io =>
    rw [call, (store_state blake3 zstd codec hcorrect s artifact io).1]
    exact hdescribed.store blake3 zstd hybrid.localStore artifact hkeep
  | retrieve hash retrieveIo storeIo =>
    rw [call]
    rcases (retrieve_state blake3 zstd codec hcorrect s hash retrieveIo storeIo).2 with
      hfiles | hfiles | ⟨artifact, hfiles⟩
    · rw [hfiles]
      exact hdescribed
    · rw [hfiles]
      exact hdescribed.retrieve blake3 zstd hash hkeep.1
    · rw [hfiles]
      exact hdescribed.store blake3 zstd hybrid.localStore artifact hkeep.2
  | delete hash io =>
    rw [call, (delete_state hcorrect s hash io).1]
    exact hdescribed.delete hash io

end HybridCasBackend

variable (readDir : ReadDir)

/-- After any calls of a local store, its statistics describe what it lists exactly when all data has
a description and the sizes fit. After any calls of a local store before a remote one, this holds
exactly when each artifact is counted once and the sizes fit. -/
theorem statistics_describe_iff {σ : Type} {held : σ → ArtifactHash → Option Artifact}
    (b : LocalCasBackend) (hybrid : HybridCasBackend σ) (hcorrect : hybrid.remote.Correct held)
    (server : σ) (hserver : ∀ hash : ArtifactHash, (held server hash).isSome →
      validateHash hash.str = .ok ()) :
    (∀ calls : List CasCall,
      let files := calls.foldl (b.call blake3 zstd codec) ∅
      StatsDescribe (LocalCasBackend.list readDir files) (LocalCasBackend.existsArtifact files)
          (LocalCasBackend.metadata codec files) (LocalCasBackend.stats readDir codec files) ↔
        Described codec files ∧ ((LocalCasBackend.list readDir files).map fun hash =>
          describedSize (LocalCasBackend.metadata codec files hash)).sum < 2 ^ 64) ∧
      ∀ calls : List HybridCall,
        let s := calls.foldl (hybrid.call blake3 zstd codec) ⟨∅, server⟩
        HybridCasBackend.Describes readDir codec hybrid s ↔
          HybridCasBackend.EachOnce codec held s ∧ HybridCasBackend.SizesFit readDir codec hybrid s := by
  refine ⟨fun calls => ?_, fun calls => ?_⟩
  · exact LocalCasBackend.statsDescribe_iff readDir codec
      (WellNamed.empty.calls blake3 zstd codec b calls)
  · have hstart : HybridCasBackend.Sound held (⟨∅, server⟩ : HybridState σ) := ⟨WellNamed.empty, hserver⟩
    exact HybridCasBackend.describes_iff readDir codec hcorrect (List.foldlRecOn calls _ hstart
      fun s hsound call _ => hsound.call blake3 zstd codec hcorrect call)

end Calls

/-! ## A sample -/

/-- What a remote store has, in memory. -/
abbrev HeldArtifacts := AList fun _ : ArtifactHash => Artifact

/-- The size of an artifact that is there. -/
def HeldArtifacts.size (s : HeldArtifacts) (hash : ArtifactHash) : ℕ :=
  ((s.lookup hash).map fun artifact => artifact.metadata.size.toNat).getD 0

/-- A remote store in memory. -/
def RemoteCas.memory : RemoteCas HeldArtifacts where
  upload artifact := fun s => (.ok (), s.insert artifact.hash artifact)
  download hash := fun s =>
    ((s.lookup hash).elim (.error (.artifactNotFound hash.str)) .ok, s)
  metadata hash := fun s =>
    ((s.lookup hash).elim (.error (.artifactNotFound hash.str)) fun artifact => .ok artifact.metadata, s)
  existsArtifact hash := fun s => (.ok (s.lookup hash).isSome, s)
  delete hash := fun s => (.ok (), s.erase hash)
  list := fun s => (.ok s.keys, s)
  stats := fun s => (.ok ⟨s.keys.length, .ofNat (s.keys.map s.size).sum, 0, "remote"⟩, s)

/-- It holds what was uploaded to it. -/
theorem RemoteCas.memory_correct : RemoteCas.memory.Correct fun s hash => s.lookup hash where
  upload artifact s := by
    refine ⟨rfl, artifact, rfl, rfl, rfl, funext fun hash => ?_⟩
    by_cases heq : hash = artifact.hash
    · rw [heq, Function.update_self]
      exact AList.lookup_insert s
    · rw [Function.update_of_ne heq]
      exact AList.lookup_insert_ne heq
  download hash s := by
    refine ⟨?_, rfl⟩
    change Except.toOption (Option.elim (s.lookup hash) _ _) = _
    cases s.lookup hash with
    | none => rfl
    | some artifact => rfl
  metadata hash s := by
    refine ⟨?_, rfl⟩
    change Except.toOption (Option.elim (s.lookup hash) _ _) = _
    cases s.lookup hash with
    | none => rfl
    | some artifact => rfl
  existsArtifact hash s := ⟨rfl, rfl⟩
  delete hash s := by
    refine ⟨rfl, funext fun hash' => ?_⟩
    by_cases heq : hash' = hash
    · rw [heq, Function.update_self]
      exact AList.lookup_erase hash s
    · rw [Function.update_of_ne heq]
      exact AList.lookup_erase_ne heq
  list s := ⟨s.keys, rfl, s.keys_nodup, fun hash => AList.mem_keys.symm.trans AList.lookup_isSome.symm, rfl⟩
  stats s := by
    refine ⟨_, rfl, rfl, fun hashes hnodup hmem => ?_⟩
    have hperm : hashes.Perm s.keys := (List.perm_ext_iff_of_nodup hnodup s.keys_nodup).mpr fun hash =>
      (hmem hash).trans (AList.lookup_isSome.trans AList.mem_keys)
    refine ⟨hperm.length_eq.symm, ?_⟩
    rw [UInt64.toNat_ofNat']
    exact congrArg (· % 2 ^ 64) (hperm.map _).sum_eq.symm

/-- A local store before a remote one in memory. -/
def sampleHybrid : HybridCasBackend HeldArtifacts := ⟨⟨.none⟩, .memory⟩

/-- Both stores after one artifact was stored. -/
def storedOnce : HybridState HeldArtifacts :=
  [HybridCall.store sampleArtifact ⟨1, none, none, none⟩].foldl
    (sampleHybrid.call sampleBlake3 sampleZstd (.ofTable sampleDescriptions)) ⟨∅, ∅⟩

/-- After one artifact was stored, the statistics count it twice. -/
theorem not_describes_stored :
    ¬ HybridCasBackend.Describes keysInOrder (.ofTable sampleDescriptions) sampleHybrid storedOnce := by
  intro hdescribes
  have hstart : HybridCasBackend.Sound (fun s hash => AList.lookup hash s)
      (⟨∅, ∅⟩ : HybridState HeldArtifacts) := ⟨WellNamed.empty, fun hash h => by cases h⟩
  have hcorrect : sampleHybrid.remote.Correct fun s hash => AList.lookup hash s := RemoteCas.memory_correct
  have hsound : HybridCasBackend.Sound (fun s hash => AList.lookup hash s) storedOnce :=
    hstart.call sampleBlake3 sampleZstd (.ofTable sampleDescriptions) hcorrect
      (.store sampleArtifact ⟨1, none, none, none⟩)
  have honce := HybridCasBackend.eachOnce_of_describes keysInOrder (.ofTable sampleDescriptions)
    hcorrect hsound hdescribes
  rcases honce sampleHash (by decide +kernel) (by decide +kernel) with ⟨_, hnone⟩ | ⟨hmetadata, _⟩
  · revert hnone
    decide +kernel
  · exact hmetadata (by decide +kernel)

/-- When the statistics describe the list, for stores in memory. -/
theorem statistics_describe_iff_memory :
    (∀ calls : List CasCall,
      let files := calls.foldl ((⟨.none⟩ : LocalCasBackend).call sampleBlake3 sampleZstd
        (.ofTable sampleDescriptions)) ∅
      StatsDescribe (LocalCasBackend.list keysInOrder files) (LocalCasBackend.existsArtifact files)
          (LocalCasBackend.metadata (.ofTable sampleDescriptions) files)
          (LocalCasBackend.stats keysInOrder (.ofTable sampleDescriptions) files) ↔
        Described (.ofTable sampleDescriptions) files ∧
          ((LocalCasBackend.list keysInOrder files).map fun hash => describedSize
            (LocalCasBackend.metadata (.ofTable sampleDescriptions) files hash)).sum < 2 ^ 64) ∧
      ∀ calls : List HybridCall,
        let s := calls.foldl (sampleHybrid.call sampleBlake3 sampleZstd (.ofTable sampleDescriptions))
          ⟨∅, ∅⟩
        HybridCasBackend.Describes keysInOrder (.ofTable sampleDescriptions) sampleHybrid s ↔
          HybridCasBackend.EachOnce (.ofTable sampleDescriptions) (fun s hash => AList.lookup hash s) s ∧
            HybridCasBackend.SizesFit keysInOrder (.ofTable sampleDescriptions) sampleHybrid s :=
  statistics_describe_iff sampleBlake3 sampleZstd (.ofTable sampleDescriptions) keysInOrder ⟨.none⟩
    sampleHybrid RemoteCas.memory_correct ∅ fun hash h => by cases h

end Forge.Cas
