import Forge.Cas.HybridBackend
import Mathlib.Algebra.BigOperators.Group.List.Basic

/-!
# What is known about a store and what it lists

The statistics of a local store count the artifacts that it lists and add up their sizes. A
local store before a remote one lists an artifact once that both have, and counts it twice.
-/

namespace Forge.Cas

open Forge.Common

/-- The size in a description, if it could be read. -/
def describedSize : Except CasError ArtifactMetadata → ℕ
  | .ok metadata => metadata.size.toNat
  | .error _ => 0

/-- Statistics describe a list: it has each existing artifact once, all of them have descriptions,
and the statistics count the artifacts and add up the sizes. -/
structure StatsDescribe (hashes : List ArtifactHash) (existsArtifact : ArtifactHash → Except CasError Bool)
    (metadata : ArtifactHash → Except CasError ArtifactMetadata) (stats : CasStats) : Prop where
  nodup : hashes.Nodup
  mem_iff : ∀ hash, hash ∈ hashes ↔ existsArtifact hash = .ok true
  described : ∀ hash ∈ hashes, ∃ read, metadata hash = .ok read
  count : stats.artifactCount = hashes.length
  total : stats.totalBytes.toNat = (hashes.map fun hash => describedSize (metadata hash)).sum

/-- A sum can leave out what adds nothing. -/
theorem sum_map_filter {α : Type*} {f : α → ℕ} {p : α → Bool} {l : List α}
    (hzero : ∀ x ∈ l, p x = false → f x = 0) : (l.map f).sum = ((l.filter p).map f).sum := by
  induction l with
  | nil => rfl
  | cons x l ih =>
    rw [List.map_cons, List.sum_cons, ih fun y hy => hzero y (List.mem_cons_of_mem x hy)]
    cases hx : p x with
    | true => rw [List.filter_cons_of_pos hx, List.map_cons, List.sum_cons]
    | false =>
      rw [List.filter_cons_of_neg (Bool.eq_false_iff.mp hx), hzero x List.mem_cons_self hx, Nat.zero_add]

/-! ## The local store -/

namespace LocalCasBackend

variable (readDir : ReadDir) (codec : MetadataCodec) {files : CasFiles}

/-- Whether an artifact with an invalid hash exists is an error. -/
theorem existsArtifact_of_invalid {hash : ArtifactHash} {e : CasError}
    (hvalid : validateHash hash.str = .error e) (files : CasFiles) :
    existsArtifact files hash = .error e := by
  rw [existsArtifact, hashPath_of_invalid hvalid]
  rfl

/-- An artifact exists when its hash is valid and it has both files. -/
theorem existsArtifact_eq_ok_iff (files : CasFiles) (hash : ArtifactHash) (present : Bool) :
    existsArtifact files hash = .ok present ↔ validateHash hash.str = .ok () ∧
      ((files.lookup (dataFile hash)).isSome && (files.lookup (metadataFile hash)).isSome) = present := by
  cases hvalid : validateHash hash.str with
  | error e =>
    rw [existsArtifact_of_invalid hvalid]
    exact iff_of_false nofun fun h => by cases h.1
  | ok =>
    obtain ⟨hdataPath, hmetadataPath⟩ := paths_of_valid hvalid
    rw [existsArtifact, hdataPath, hmetadataPath, and_iff_right rfl]
    exact ⟨fun heq => Except.ok.inj heq, fun heq => congrArg Except.ok heq⟩

/-- The artifacts that exist. -/
def existing (files : CasFiles) : List ArtifactHash :=
  (list readDir files).filter fun hash => decide (metadataFile hash ∈ files)

/-- What exists has both files. -/
theorem mem_existing_iff (hnamed : WellNamed files) (hash : ArtifactHash) :
    hash ∈ existing readDir files ↔
      validateHash hash.str = .ok () ∧ dataFile hash ∈ files ∧ metadataFile hash ∈ files := by
  rw [existing, List.mem_filter, mem_list_iff readDir hnamed, decide_eq_true_iff, and_assoc]

/-- For a valid hash the answer is whether it exists. -/
theorem existsArtifact_of_valid (hnamed : WellNamed files) {hash : ArtifactHash}
    (hvalid : validateHash hash.str = .ok ()) :
    existsArtifact files hash = .ok (decide (hash ∈ existing readDir files)) := by
  refine (existsArtifact_eq_ok_iff files hash _).mpr ⟨hvalid, ?_⟩
  rw [Bool.eq_iff_iff, Bool.and_eq_true, AList.lookup_isSome, AList.lookup_isSome, decide_eq_true_iff,
    mem_existing_iff readDir hnamed, and_iff_right hvalid]

/-- An artifact exists exactly when it is among those that exist. -/
theorem existsArtifact_iff (hnamed : WellNamed files) (hash : ArtifactHash) :
    hash ∈ existing readDir files ↔ existsArtifact files hash = .ok true := by
  rw [existsArtifact_eq_ok_iff, Bool.and_eq_true, AList.lookup_isSome, AList.lookup_isSome,
    mem_existing_iff readDir hnamed]

/-- The description of a hash is the one in its file. -/
theorem metadata_eq_ok_iff (files : CasFiles) (hash : ArtifactHash) (read : ArtifactMetadata) :
    metadata codec files hash = .ok read ↔ validateHash hash.str = .ok () ∧
      ∃ json, files.lookup (metadataFile hash) = some json ∧ codec.fromSlice json = some read ∧
        read.hash = hash := by
  cases hvalid : validateHash hash.str with
  | error e =>
    rw [metadata, metadataPath, hashPath_of_invalid hvalid]
    exact iff_of_false (fun h => by cases h) fun h => by cases h.1
  | ok =>
    rw [metadata, (paths_of_valid hvalid).2, and_iff_right rfl]
    dsimp only [bind, Except.bind]
    cases files.lookup (metadataFile hash) with
    | none => exact iff_of_false (fun h => by cases h) fun h => by cases h.choose_spec.1
    | some json =>
      change (readMetadata codec json none >>= fun metadata => _) = _ ↔ _
      rw [bind_eq_ok_iff]
      constructor
      · intro h
        obtain ⟨found, hread, hchecked⟩ := h
        have hfound := ((readMetadata_ok_iff codec json none found).mp hread).2
        by_cases hhash : found.hash = hash
        · change (if found.hash ≠ hash then _ else _) = _ at hchecked
          rw [if_neg (not_not_intro hhash)] at hchecked
          cases hchecked
          exact ⟨json, rfl, hfound, hhash⟩
        · change (if found.hash ≠ hash then _ else _) = _ at hchecked
          rw [if_pos hhash] at hchecked
          cases hchecked
      · intro h
        obtain ⟨_, hjson, hread, hhash⟩ := h
        cases hjson
        refine ⟨read, (readMetadata_ok_iff codec json none read).mpr ⟨rfl, hread⟩, ?_⟩
        exact if_neg (not_not_intro hhash)

/-- A valid hash has a description exactly when it is read. -/
theorem hasDescription_iff (files : CasFiles) {hash : ArtifactHash} (hvalid : validateHash hash.str = .ok ()) :
    HasDescription codec files hash ↔ ∃ read, metadata codec files hash = .ok read := by
  constructor
  · intro h
    obtain ⟨json, read, hread⟩ := h
    exact ⟨read, (metadata_eq_ok_iff codec files hash read).mpr ⟨hvalid, json, hread⟩⟩
  · intro h
    obtain ⟨read, hread⟩ := h
    obtain ⟨_, json, hjson⟩ := (metadata_eq_ok_iff codec files hash read).mp hread
    exact ⟨json, read, hjson⟩

/-- A hash is counted exactly when it has data and a description. -/
theorem healthy_isSome_iff (files : CasFiles) (hash : ArtifactHash) :
    (healthy codec files hash).isSome ↔ dataFile hash ∈ files ∧ HasDescription codec files hash := by
  rw [healthy, ← AList.lookup_isSome, HasDescription]
  cases files.lookup (dataFile hash) with
  | none => exact iff_of_false (fun h => by cases h) fun h => by cases h.1
  | some data =>
    simp only [Option.isSome_some, true_and]
    cases files.lookup (metadataFile hash) with
    | none => exact iff_of_false (fun h => by cases h) fun h => by cases h.choose_spec.choose_spec.1
    | some json =>
      dsimp only
      cases hread : codec.fromSlice json with
      | none =>
        refine iff_of_false (fun h => by cases h) fun h => ?_
        obtain ⟨_, _, hjson, hsome, _⟩ := h
        cases hjson
        cases hread.symm.trans hsome
      | some read =>
        dsimp only
        by_cases hhash : read.hash = hash
        · rw [if_pos hhash]
          exact iff_of_true rfl ⟨json, read, rfl, hread, hhash⟩
        · rw [if_neg hhash]
          refine iff_of_false (fun h => by cases h) fun h => ?_
          obtain ⟨_, _, hjson, hsome, hsame⟩ := h
          cases hjson
          cases hread.symm.trans hsome
          exact hhash hsame

/-- What a hash adds is the size in its description. -/
theorem storedSize_of_healthy {hash : ArtifactHash} (hvalid : validateHash hash.str = .ok ())
    (hhealthy : (healthy codec files hash).isSome) :
    storedSize codec files hash = describedSize (metadata codec files hash) := by
  obtain ⟨hdata, json, read, hjson, hread, hhash⟩ := (healthy_isSome_iff codec files hash).mp hhealthy
  obtain ⟨data, hstored⟩ := Option.isSome_iff_exists.mp (AList.lookup_isSome.mpr hdata)
  rw [storedSize_of_lookup codec hstored hjson, hread,
    (metadata_eq_ok_iff codec files hash read).mpr ⟨hvalid, json, hjson, hread, hhash⟩]
  exact if_pos hhash

/-- When what exists has descriptions, it is counted and its sizes are added up. -/
theorem stats_of_existing (hnamed : WellNamed files)
    (hdescribed : ∀ hash ∈ existing readDir files, HasDescription codec files hash) :
    (stats readDir codec files).artifactCount = (existing readDir files).length ∧
      (stats readDir codec files).totalBytes.toNat =
        ((existing readDir files).map fun hash => describedSize (metadata codec files hash)).sum % 2 ^ 64 := by
  have hhealthy : ∀ hash ∈ list readDir files,
      (healthy codec files hash).isSome = decide (metadataFile hash ∈ files) := by
    intro hash hlisted
    obtain ⟨hvalid, hdata⟩ := (mem_list_iff readDir hnamed hash).mp hlisted
    rw [Bool.eq_iff_iff, healthy_isSome_iff, decide_eq_true_iff, and_iff_right hdata]
    constructor
    · intro h
      obtain ⟨json, _, hjson, _⟩ := h
      exact AList.lookup_isSome.mp (hjson ▸ rfl)
    · intro hmetadata
      exact hdescribed hash ((mem_existing_iff readDir hnamed hash).mpr ⟨hvalid, hdata, hmetadata⟩)
  constructor
  · rw [stats_artifactCount, List.countP_eq_length_filter, List.filter_congr hhealthy]
    rfl
  · rw [stats_totalBytes]
    refine congrArg (· % 2 ^ 64) ((sum_map_filter fun hash hlisted hmissing => ?_).trans
      (congrArg List.sum (List.map_congr_left fun hash hexisting => ?_)))
    · rw [← hhealthy hash hlisted, Option.isSome_eq_false_iff, Option.isNone_iff_eq_none] at hmissing
      rw [storedSize, hmissing]
    · obtain ⟨hlisted, hmetadata⟩ := List.mem_filter.mp hexisting
      exact storedSize_of_healthy codec ((mem_list_iff readDir hnamed hash).mp hlisted).1
        ((hhealthy hash hlisted).trans hmetadata)

/-- The statistics of a store describe what it lists exactly when all data has a description, and the
sizes add up to a number of 64 bits. -/
theorem statsDescribe_iff (hnamed : WellNamed files) :
    StatsDescribe (list readDir files) (existsArtifact files) (metadata codec files)
        (stats readDir codec files) ↔
      Described codec files ∧
        ((list readDir files).map fun hash => describedSize (metadata codec files hash)).sum < 2 ^ 64 := by
  constructor
  · intro hdescribe
    refine ⟨⟨hnamed, fun hash hvalid hdata => (hasDescription_iff codec files hvalid).mpr ?_⟩, ?_⟩
    · exact hdescribe.described hash ((mem_list_iff readDir hnamed hash).mpr ⟨hvalid, hdata⟩)
    · rw [← hdescribe.total]
      exact UInt64.toNat_lt _
  · intro h
    obtain ⟨hdescribed, hsum⟩ := h
    have hdescription : ∀ hash ∈ list readDir files,
        validateHash hash.str = .ok () ∧ HasDescription codec files hash := by
      intro hash hlisted
      obtain ⟨hvalid, hdata⟩ := (mem_list_iff readDir hnamed hash).mp hlisted
      exact ⟨hvalid, hdescribed.description hash hvalid hdata⟩
    have hall : existing readDir files = list readDir files := by
      refine List.filter_eq_self.mpr fun hash hlisted => ?_
      obtain ⟨json, _, hjson, _⟩ := (hdescription hash hlisted).2
      exact decide_eq_true (AList.lookup_isSome.mp (hjson ▸ rfl))
    have hstats := stats_of_existing readDir codec hnamed fun hash hexisting =>
      (hdescription hash (List.mem_of_mem_filter hexisting)).2
    rw [hall] at hstats
    refine ⟨list_nodup readDir hnamed, fun hash => ?_, fun hash hlisted => ?_, hstats.1,
      hstats.2.trans (Nat.mod_eq_of_lt hsum)⟩
    · rw [← hall]
      exact existsArtifact_iff readDir hnamed hash
    · obtain ⟨hvalid, hread⟩ := hdescription hash hlisted
      exact (hasDescription_iff codec files hvalid).mp hread

end LocalCasBackend

/-! ## Both stores -/

namespace HybridCasBackend

variable {σ : Type} {held : σ → ArtifactHash → Option Artifact}

/-- The files are well named, and the remote store holds only what has a valid hash. -/
structure Sound (held : σ → ArtifactHash → Option Artifact) (s : HybridState σ) : Prop where
  named : WellNamed s.files
  valid : ∀ hash : ArtifactHash, (held s.server hash).isSome → validateHash hash.str = .ok ()

/-- Each artifact with data in the local store either has its description there and is not in the
remote store, or has lost the description and is in the remote store. -/
def EachOnce (codec : MetadataCodec) (held : σ → ArtifactHash → Option Artifact) (s : HybridState σ) : Prop :=
  ∀ hash : ArtifactHash, validateHash hash.str = .ok () → dataFile hash ∈ s.files →
    (HasDescription codec s.files hash ∧ held s.server hash = none) ∨
      (metadataFile hash ∉ s.files ∧ (held s.server hash).isSome)

variable (readDir : ReadDir) (codec : MetadataCodec) {hybrid : HybridCasBackend σ} {s : HybridState σ}

/-- Both stores list what one of them lists, each artifact once. -/
theorem list_of_correct (hcorrect : hybrid.remote.Correct held) (s : HybridState σ) :
    ∃ remoteHashes hashes : List ArtifactHash, (hybrid.list readDir s).1 = .ok hashes ∧ hashes.Nodup ∧
      (∀ hash, hash ∈ hashes ↔ hash ∈ LocalCasBackend.list readDir s.files ∨ hash ∈ remoteHashes) ∧
      remoteHashes.Nodup ∧ ∀ hash, hash ∈ remoteHashes ↔ (held s.server hash).isSome := by
  obtain ⟨remoteHashes, hlist, hnodup, hmem, _⟩ := hcorrect.list s.server
  refine ⟨remoteHashes, ((LocalCasBackend.list readDir s.files ++ remoteHashes).insertionSort
    (· ≤ ·)).destutter (· ≠ ·), ?_, ?_, fun hash => ?_, hnodup, hmem⟩
  · rw [list]
    cases hremote : hybrid.remote.list s.server with
    | mk result server =>
      rw [hremote] at hlist
      cases hlist
      rfl
  · rw [sorted_destutter_eq_dedup]
    exact List.nodup_dedup _
  · rw [sorted_destutter_eq_dedup, List.mem_dedup, List.mem_insertionSort, List.mem_append]

/-- An artifact exists in both stores together when it exists in one of them. -/
theorem existsArtifact_iff (hcorrect : hybrid.remote.Correct held) (hsound : Sound held s)
    (hash : ArtifactHash) :
    (hybrid.existsArtifact s hash).1 = .ok true ↔
      hash ∈ LocalCasBackend.existing readDir s.files ∨ (held s.server hash).isSome := by
  rw [existsArtifact]
  cases hvalid : validateHash hash.str with
  | error e =>
    rw [LocalCasBackend.existsArtifact_of_invalid hvalid]
    refine iff_of_false nofun fun h => ?_
    rcases h with hexisting | hheld
    · cases hvalid.symm.trans ((LocalCasBackend.mem_existing_iff readDir hsound.named hash).mp hexisting).1
    · cases hvalid.symm.trans (hsound.valid hash hheld)
  | ok =>
    rw [LocalCasBackend.existsArtifact_of_valid readDir hsound.named hvalid]
    by_cases hexisting : hash ∈ LocalCasBackend.existing readDir s.files
    · rw [decide_eq_true hexisting]
      exact iff_of_true rfl (Or.inl hexisting)
    · rw [decide_eq_false hexisting, or_iff_right hexisting]
      change (hybrid.remote.existsArtifact hash s.server).1 = .ok true ↔ _
      rw [(hcorrect.existsArtifact hash s.server).1, Except.ok.injEq]

/-- The description of an artifact comes from the store that has it, the local one first. -/
theorem metadata_of_correct (hcorrect : hybrid.remote.Correct held) (hsound : Sound held s)
    {hash : ArtifactHash} (hvalid : validateHash hash.str = .ok ()) :
    (hash ∈ LocalCasBackend.existing readDir s.files ∧
        (hybrid.metadata codec s hash).1 = LocalCasBackend.metadata codec s.files hash) ∨
      (hash ∉ LocalCasBackend.existing readDir s.files ∧
        (hybrid.metadata codec s hash).1.toOption = (held s.server hash).map Artifact.metadata) := by
  rw [metadata, LocalCasBackend.existsArtifact_of_valid readDir hsound.named hvalid]
  by_cases hexisting : hash ∈ LocalCasBackend.existing readDir s.files
  · rw [decide_eq_true hexisting]
    exact Or.inl ⟨hexisting, rfl⟩
  · rw [decide_eq_false hexisting]
    exact Or.inr ⟨hexisting, (hcorrect.metadata hash s.server).1⟩

/-- The size in a description that was read. -/
theorem describedSize_eq_getD (read : Except CasError ArtifactMetadata) :
    describedSize read = (read.toOption.map fun metadata => metadata.size.toNat).getD 0 := by
  cases read with
  | ok metadata => rfl
  | error e => rfl

/-- Both stores count what exists in them, when this has descriptions. -/
theorem stats_of_existing (hcorrect : hybrid.remote.Correct held) (hsound : Sound held s)
    (hdescribed : ∀ hash ∈ LocalCasBackend.existing readDir s.files, HasDescription codec s.files hash)
    {remoteHashes : List ArtifactHash} (hnodup : remoteHashes.Nodup)
    (hmem : ∀ hash, hash ∈ remoteHashes ↔ (held s.server hash).isSome) :
    ∃ stats, (hybrid.stats readDir codec s).1 = .ok stats ∧
      stats.artifactCount = (LocalCasBackend.existing readDir s.files).length + remoteHashes.length ∧
      stats.totalBytes.toNat =
        (((LocalCasBackend.existing readDir s.files).map fun hash =>
            describedSize (LocalCasBackend.metadata codec s.files hash)).sum +
          (remoteHashes.map fun hash =>
            ((held s.server hash).map fun artifact => artifact.metadata.size.toNat).getD 0).sum) % 2 ^ 64 := by
  obtain ⟨remoteStats, hstats, _, hdescribe⟩ := hcorrect.stats s.server
  obtain ⟨hcount, htotal⟩ := hdescribe remoteHashes hnodup hmem
  obtain ⟨hlocalCount, hlocalTotal⟩ :=
    LocalCasBackend.stats_of_existing readDir codec hsound.named hdescribed
  rw [stats]
  cases hremote : hybrid.remote.stats s.server with
  | mk result server =>
    rw [hremote] at hstats
    cases hstats
    refine ⟨_, rfl, ?_, ?_⟩
    · rw [hlocalCount, hcount]
    · rw [UInt64.toNat_add, hlocalTotal, htotal, ← Nat.add_mod]

/-- The lists, what exists, the descriptions and the statistics of both stores agree. -/
def Describes (readDir : ReadDir) (codec : MetadataCodec) (hybrid : HybridCasBackend σ)
    (s : HybridState σ) : Prop :=
  ∃ hashes stats, (hybrid.list readDir s).1 = .ok hashes ∧ (hybrid.stats readDir codec s).1 = .ok stats ∧
    StatsDescribe hashes (fun hash => (hybrid.existsArtifact s hash).1)
      (fun hash => (hybrid.metadata codec s hash).1) stats

/-- The sizes of the artifacts that are listed add up to a number of 64 bits. -/
def SizesFit (readDir : ReadDir) (codec : MetadataCodec) (hybrid : HybridCasBackend σ)
    (s : HybridState σ) : Prop :=
  ∀ hashes, (hybrid.list readDir s).1 = .ok hashes →
    (hashes.map fun hash => describedSize (hybrid.metadata codec s hash).1).sum < 2 ^ 64

/-- Statistics that describe the list count each artifact once. -/
theorem eachOnce_of_describes (hcorrect : hybrid.remote.Correct held) (hsound : Sound held s)
    (hdescribes : Describes readDir codec hybrid s) : EachOnce codec held s := by
  obtain ⟨hashes, stats, hlist, hstats, hdescribe⟩ := hdescribes
  obtain ⟨remoteHashes, hashes', hlist', hnodup, hmem, hremoteNodup, hremote⟩ :=
    list_of_correct readDir hcorrect s
  cases hlist.symm.trans hlist'
  have hexists : ∀ hash, hash ∈ hashes ↔
      hash ∈ LocalCasBackend.existing readDir s.files ++ remoteHashes := by
    intro hash
    rw [hdescribe.mem_iff, existsArtifact_iff readDir hcorrect hsound, List.mem_append, hremote]
  have hdescribed : ∀ hash ∈ LocalCasBackend.existing readDir s.files,
      HasDescription codec s.files hash := by
    intro hash hexisting
    have hvalid := ((LocalCasBackend.mem_existing_iff readDir hsound.named hash).mp hexisting).1
    rw [LocalCasBackend.hasDescription_iff codec s.files hvalid]
    obtain ⟨read, hread⟩ :=
      hdescribe.described hash ((hexists hash).mpr (List.mem_append_left _ hexisting))
    rcases metadata_of_correct readDir codec hcorrect hsound hvalid with ⟨_, hlocal⟩ | ⟨hnot, _⟩
    · exact ⟨read, hlocal.symm.trans hread⟩
    · exact absurd hexisting hnot
  obtain ⟨stats', hstats', hcount, _⟩ :=
    stats_of_existing readDir codec hcorrect hsound hdescribed hremoteNodup hremote
  cases hstats.symm.trans hstats'
  -- The list is as long as both lists together, so they have nothing in common.
  have hdisjoint : (LocalCasBackend.existing readDir s.files).Disjoint remoteHashes := by
    have hlength : (LocalCasBackend.existing readDir s.files ++ remoteHashes).length ≤
        (LocalCasBackend.existing readDir s.files ++ remoteHashes).dedup.length := by
      rw [List.length_append, ← hcount, hdescribe.count]
      exact (hnodup.subperm fun hash hlisted => List.mem_dedup.mpr ((hexists hash).mp hlisted)).length_le
    refine List.disjoint_of_nodup_append (List.dedup_eq_self.mp ?_)
    exact (List.dedup_sublist _).eq_of_length_le hlength
  intro hash hvalid hdata
  by_cases hmetadata : metadataFile hash ∈ s.files
  · have hexisting := (LocalCasBackend.mem_existing_iff readDir hsound.named hash).mpr
      ⟨hvalid, hdata, hmetadata⟩
    refine Or.inl ⟨hdescribed hash hexisting, Option.not_isSome_iff_eq_none.mp fun hheld => ?_⟩
    exact hdisjoint hexisting ((hremote hash).mpr hheld)
  · have hlisted := (hexists hash).mp ((hmem hash).mpr (Or.inl
      ((LocalCasBackend.mem_list_iff readDir hsound.named hash).mpr ⟨hvalid, hdata⟩)))
    rcases List.mem_append.mp hlisted with hexisting | hheld
    · exact absurd ((LocalCasBackend.mem_existing_iff readDir hsound.named hash).mp hexisting).2.2 hmetadata
    · exact Or.inr ⟨hmetadata, (hremote hash).mp hheld⟩

/-- What exists in the local store has a description and is not in the remote store, if each
artifact is counted once. -/
theorem EachOnce.of_existing (honce : EachOnce codec held s) (hnamed : WellNamed s.files)
    {hash : ArtifactHash} (hexisting : hash ∈ LocalCasBackend.existing readDir s.files) :
    HasDescription codec s.files hash ∧ held s.server hash = none := by
  obtain ⟨hvalid, hdata, hmetadata⟩ := (LocalCasBackend.mem_existing_iff readDir hnamed hash).mp hexisting
  exact (honce hash hvalid hdata).resolve_right fun h => h.1 hmetadata

/-- Both stores list what exists in the local one and what the remote one has, if each artifact is
counted once. -/
theorem EachOnce.list_perm (honce : EachOnce codec held s) (hsound : Sound held s)
    {remoteHashes hashes : List ArtifactHash} (hnodup : hashes.Nodup)
    (hmem : ∀ hash, hash ∈ hashes ↔ hash ∈ LocalCasBackend.list readDir s.files ∨ hash ∈ remoteHashes)
    (hremoteNodup : remoteHashes.Nodup)
    (hremote : ∀ hash, hash ∈ remoteHashes ↔ (held s.server hash).isSome) :
    hashes.Perm (LocalCasBackend.existing readDir s.files ++ remoteHashes) := by
  have hexisting := (LocalCasBackend.list_nodup readDir hsound.named).filter
    fun hash => decide (metadataFile hash ∈ s.files)
  refine (List.perm_ext_iff_of_nodup hnodup (hexisting.append hremoteNodup fun hash hlocal hheld => ?_)).mpr
    fun hash => ?_
  · have hnone := (honce.of_existing readDir codec hsound.named hlocal).2
    have hsome := (hremote hash).mp hheld
    rw [hnone] at hsome
    cases hsome
  · rw [hmem, List.mem_append]
    refine or_congr_left' fun hnot => ⟨fun hlisted => ?_, fun h => List.mem_of_mem_filter h⟩
    obtain ⟨hvalid, hdata⟩ := (LocalCasBackend.mem_list_iff readDir hsound.named hash).mp hlisted
    rcases honce hash hvalid hdata with ⟨⟨json, _, hjson, _⟩, _⟩ | ⟨_, hheld⟩
    · exact (LocalCasBackend.mem_existing_iff readDir hsound.named hash).mpr
        ⟨hvalid, hdata, AList.lookup_isSome.mp (hjson ▸ rfl)⟩
    · exact absurd ((hremote hash).mpr hheld) hnot

/-- The statistics describe the list, if each artifact is counted once and the sizes fit. -/
theorem describes_of_eachOnce (hcorrect : hybrid.remote.Correct held) (hsound : Sound held s)
    (honce : EachOnce codec held s) (hsizes : SizesFit readDir codec hybrid s) :
    Describes readDir codec hybrid s := by
  obtain ⟨remoteHashes, hashes, hlist, hnodup, hmem, hremoteNodup, hremote⟩ :=
    list_of_correct readDir hcorrect s
  have hperm := honce.list_perm readDir codec hsound hnodup hmem hremoteNodup hremote
  have hlocal : ∀ hash ∈ LocalCasBackend.existing readDir s.files,
      (hybrid.metadata codec s hash).1 = LocalCasBackend.metadata codec s.files hash := by
    intro hash hexisting
    have hvalid := ((LocalCasBackend.mem_existing_iff readDir hsound.named hash).mp hexisting).1
    exact ((metadata_of_correct readDir codec hcorrect hsound hvalid).resolve_right
      fun h => h.1 hexisting).2
  have hother : ∀ hash ∈ remoteHashes,
      (hybrid.metadata codec s hash).1.toOption = (held s.server hash).map Artifact.metadata := by
    intro hash hheld
    have hsome := (hremote hash).mp hheld
    refine ((metadata_of_correct readDir codec hcorrect hsound (hsound.valid hash hsome)).resolve_left
      fun h => ?_).2
    rw [(honce.of_existing readDir codec hsound.named h.1).2] at hsome
    cases hsome
  obtain ⟨stats, hstats, hcount, htotal⟩ := stats_of_existing readDir codec hcorrect hsound
    (fun hash hexisting => (honce.of_existing readDir codec hsound.named hexisting).1) hremoteNodup hremote
  refine ⟨hashes, stats, hlist, hstats, hnodup, fun hash => ?_, fun hash hlisted => ?_, ?_, ?_⟩
  · rw [existsArtifact_iff readDir hcorrect hsound, hperm.mem_iff, List.mem_append, hremote]
  · rcases List.mem_append.mp (hperm.mem_iff.mp hlisted) with hexisting | hheld
    · have hvalid := ((LocalCasBackend.mem_existing_iff readDir hsound.named hash).mp hexisting).1
      rw [hlocal hash hexisting, ← LocalCasBackend.hasDescription_iff codec s.files hvalid]
      exact (honce.of_existing readDir codec hsound.named hexisting).1
    · obtain ⟨artifact, hartifact⟩ := Option.isSome_iff_exists.mp ((hremote hash).mp hheld)
      have hread := hother hash hheld
      rw [hartifact] at hread
      cases hresult : (hybrid.metadata codec s hash).1 with
      | ok read => exact ⟨read, rfl⟩
      | error e =>
        rw [hresult] at hread
        cases hread
  · rw [hcount, hperm.length_eq, List.length_append]
  · have hsum : (hashes.map fun hash => describedSize (hybrid.metadata codec s hash).1).sum =
        ((LocalCasBackend.existing readDir s.files).map fun hash =>
            describedSize (LocalCasBackend.metadata codec s.files hash)).sum +
          (remoteHashes.map fun hash =>
            ((held s.server hash).map fun artifact => artifact.metadata.size.toNat).getD 0).sum := by
      rw [(hperm.map _).sum_eq, List.map_append, List.sum_append]
      congr 2
      · exact List.map_congr_left fun hash hexisting => congrArg describedSize (hlocal hash hexisting)
      · refine List.map_congr_left fun hash hheld => ?_
        rw [describedSize_eq_getD, hother hash hheld, Option.map_map]
        rfl
    rw [hsum, htotal, Nat.mod_eq_of_lt]
    rw [← hsum]
    exact hsizes hashes hlist

/-- The statistics of both stores describe what they list exactly when each artifact is counted once
and the sizes fit. -/
theorem describes_iff (hcorrect : hybrid.remote.Correct held) (hsound : Sound held s) :
    Describes readDir codec hybrid s ↔ EachOnce codec held s ∧ SizesFit readDir codec hybrid s := by
  constructor
  · intro hdescribes
    refine ⟨eachOnce_of_describes readDir codec hcorrect hsound hdescribes, fun hashes hlist => ?_⟩
    obtain ⟨_, stats, hlist', _, hdescribe⟩ := hdescribes
    cases hlist.symm.trans hlist'
    rw [← hdescribe.total]
    exact UInt64.toNat_lt _
  · intro h
    exact describes_of_eachOnce readDir codec hcorrect hsound h.1 h.2

end HybridCasBackend

end Forge.Cas
