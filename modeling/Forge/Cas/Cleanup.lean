import Forge.Cas.Calls
import Forge.Cas.CleanupPolicy
import Forge.Cas.CrashedStore

/-!
# Cleaning up a store

A cleanup lists the artifacts, reads their descriptions, chooses those to remove, and deletes them
one after another. The clock is read for every artifact. A store that was filled by stores that
completed loses exactly what the policy chooses.
-/

namespace Forge.Cas

open Forge.Common

/-- What a cleanup did. -/
structure CleanupResult where
  removedCount : ℕ
  freedBytes : UInt64
  deriving DecidableEq, Repr

namespace LocalCasBackend

variable (readDir : ReadDir) (codec : MetadataCodec)

/-- The artifacts whose descriptions can be read. -/
def entries (files : CasFiles) : List (ArtifactHash × ArtifactMetadata) :=
  (list readDir files).filterMap fun hash => (metadata codec files hash).toOption.map fun metadata => (hash, metadata)

/-- What to remove. -/
def removals (policy : CleanupPolicy) (clock : ArtifactHash → UnixTime)
    (entries : List (ArtifactHash × ArtifactMetadata)) : List (ArtifactHash × ArtifactMetadata) :=
  match policy with
  | .keepMostRecent keep => (entries.mergeSort fun a b => decide (b.2.storedAt ≤ a.2.storedAt)).drop keep
  | policy => entries.filter fun entry => policy.shouldRemoveMetadata (clock entry.1) entry.2

/-- Delete artifacts, up to the first that cannot be deleted. -/
def removeAll (io : ArtifactHash → DeleteIo) :
    List (ArtifactHash × ArtifactMetadata) → CasFiles → CleanupResult → Except CasError CleanupResult × CasFiles
  | [], files, result => (.ok result, files)
  | (hash, metadata) :: rest, files, result =>
    match delete files hash (io hash) with
    | (.error e, files) => (.error e, files)
    | (.ok (), files) =>
      removeAll io rest files ⟨result.removedCount + 1, result.freedBytes + metadata.size⟩

/-- Remove the artifacts that a policy chooses. -/
def cleanup (policy : CleanupPolicy) (clock : ArtifactHash → UnixTime) (io : ArtifactHash → DeleteIo)
    (files : CasFiles) : Except CasError CleanupResult × CasFiles :=
  removeAll io (removals policy clock (entries readDir codec files)) files ⟨0, 0⟩

/-! ## What is chosen -/

variable {readDir codec} {files : CasFiles}

/-- When all data has a description, the entries are what is listed. -/
theorem map_fst_entries (hdescribed : Described codec files) :
    (entries readDir codec files).map Prod.fst = list readDir files := by
  rw [entries, List.map_filterMap]
  have hall : ∀ hash ∈ list readDir files,
      Option.map Prod.fst ((metadata codec files hash).toOption.map fun metadata => (hash, metadata)) =
        some hash := by
    intro hash hlisted
    obtain ⟨hvalid, hdata⟩ := (mem_list_iff readDir hdescribed.named hash).mp hlisted
    obtain ⟨read, hread⟩ :=
      (hasDescription_iff codec files hvalid).mp (hdescribed.description hash hvalid hdata)
    rw [hread]
    rfl
  rw [List.filterMap_congr hall, List.filterMap_some]

/-- The description of an entry is the one of its hash. -/
theorem mem_entries_iff (entry : ArtifactHash × ArtifactMetadata) :
    entry ∈ entries readDir codec files ↔
      entry.1 ∈ list readDir files ∧ metadata codec files entry.1 = .ok entry.2 := by
  rw [entries, List.mem_filterMap]
  constructor
  · intro h
    obtain ⟨hash, hlisted, hentry⟩ := h
    cases hread : metadata codec files hash with
    | error e =>
      rw [hread] at hentry
      cases hentry
    | ok read =>
      rw [hread] at hentry
      cases hentry
      exact ⟨hlisted, hread⟩
  · intro h
    refine ⟨entry.1, h.1, ?_⟩
    rw [h.2]
    rfl

/-- By age, what is removed is not newer than what is kept. -/
theorem storedAt_le_of_keepMostRecent {keep : ℕ} {clock : ArtifactHash → UnixTime}
    {entries : List (ArtifactHash × ArtifactMetadata)} {removed kept : ArtifactHash × ArtifactMetadata}
    (hremoved : removed ∈ removals (.keepMostRecent keep) clock entries) (hkept : kept ∈ entries)
    (hnot : kept ∉ removals (.keepMostRecent keep) clock entries) : removed.2.storedAt ≤ kept.2.storedAt := by
  rw [removals] at hremoved hnot
  have hsorted : (entries.mergeSort fun a b => decide (b.2.storedAt ≤ a.2.storedAt)).Pairwise
      fun a b => decide (b.2.storedAt ≤ a.2.storedAt) = true := by
    refine List.pairwise_mergeSort (fun a b c hab hbc => ?_) (fun a b => ?_) entries
    · rw [decide_eq_true_eq, Int64.le_iff_toInt_le] at *
      exact hbc.trans hab
    · rw [Bool.or_eq_true, decide_eq_true_eq, decide_eq_true_eq, Int64.le_iff_toInt_le, Int64.le_iff_toInt_le]
      exact (Int.le_total _ _).symm
  have hfirst : kept ∈ (entries.mergeSort fun a b => decide (b.2.storedAt ≤ a.2.storedAt)).take keep := by
    have hmem : kept ∈ entries.mergeSort fun a b => decide (b.2.storedAt ≤ a.2.storedAt) :=
      List.mem_mergeSort.mpr hkept
    rw [← List.take_append_drop keep (entries.mergeSort _), List.mem_append] at hmem
    exact hmem.resolve_right hnot
  rw [← List.take_append_drop keep (entries.mergeSort _), List.pairwise_append] at hsorted
  exact of_decide_eq_true (hsorted.2.2 kept hfirst removed hremoved)

/-- What is removed was an entry, and each entry is removed once. -/
theorem removals_subperm (policy : CleanupPolicy) (clock : ArtifactHash → UnixTime)
    (entries : List (ArtifactHash × ArtifactMetadata)) : (removals policy clock entries).Subperm entries := by
  rw [removals.eq_def]
  split
  · exact (List.drop_sublist _ _).subperm.trans (List.mergeSort_perm _ _).subperm
  · exact List.filter_sublist.subperm

/-! ## What deleting leaves -/

/-- Deleting an artifact removes its two files and leaves those of other artifacts. -/
theorem delete_none {hash : ArtifactHash} (hvalid : validateHash hash.str = .ok ()) (files : CasFiles) :
    delete files hash ⟨none, none⟩ = (.ok (), (files.erase (dataFile hash)).erase (metadataFile hash)) := by
  obtain ⟨hdataPath, hmetadataPath⟩ := paths_of_valid hvalid
  have hremove : ∀ (files : CasFiles) (path : CasPath), removeFile files path none = (.ok (), files.erase path) := by
    intro files path
    rcases removeFile_cases files path none with hremoved | ⟨e, hfailed⟩
    · exact hremoved
    · rw [removeFile.eq_def] at hfailed
      split at hfailed <;> cases hfailed
  rw [delete, hdataPath, hmetadataPath]
  dsimp only
  rw [hremove]
  dsimp only
  rw [hremove]

/-- The files after an artifact was deleted. -/
theorem delete_lookup {hash other : ArtifactHash} (hvalid : validateHash hash.str = .ok ())
    (hvalid' : validateHash other.str = .ok ()) (files : CasFiles) (file : CasFile) :
    ((files.erase (dataFile hash)).erase (metadataFile hash)).lookup (file.path other) =
      if other = hash then none else files.lookup (file.path other) := by
  have hdata : file.path other = dataFile hash ↔ file = .data ∧ other = hash :=
    CasFile.path_eq_path_iff hvalid' hvalid file .data
  have hmetadata : file.path other = metadataFile hash ↔ file = .metadata ∧ other = hash :=
    CasFile.path_eq_path_iff hvalid' hvalid file .metadata
  by_cases hsame : other = hash
  · rw [if_pos hsame]
    cases file with
    | data =>
      have hpath := hdata.mpr ⟨rfl, hsame⟩
      rw [hpath, AList.lookup_erase_ne (show dataFile hash ≠ metadataFile hash from (withExtension_ne _ _).symm),
        AList.lookup_erase]
    | metadata => rw [hmetadata.mpr ⟨rfl, hsame⟩, AList.lookup_erase]
  · rw [if_neg hsame, AList.lookup_erase_ne fun h => hsame (hmetadata.mp h).2,
      AList.lookup_erase_ne fun h => hsame (hdata.mp h).2]

/-- Deleting artifacts one after another removes the files of all of them, and counts them. -/
theorem removeAll_spec {removed : List (ArtifactHash × ArtifactMetadata)}
    (hvalid : ∀ entry ∈ removed, validateHash entry.1.str = .ok ()) (hnamed : WellNamed files)
    (result : CleanupResult) :
    ∃ done files', removeAll (fun _ => ⟨none, none⟩) removed files result = (.ok done, files') ∧
      done.removedCount = result.removedCount + removed.length ∧
      done.freedBytes.toNat =
        (result.freedBytes.toNat + (removed.map fun entry => entry.2.size.toNat).sum) % 2 ^ 64 ∧
      WellNamed files' ∧ ∀ hash : ArtifactHash, validateHash hash.str = .ok () → ∀ file : CasFile,
        files'.lookup (file.path hash) =
          if hash ∈ removed.map Prod.fst then none else files.lookup (file.path hash) := by
  induction removed generalizing files result with
  | nil =>
    refine ⟨result, files, rfl, rfl, ?_, hnamed, fun hash _ file => (if_neg (List.not_mem_nil)).symm⟩
    exact (Nat.mod_eq_of_lt result.freedBytes.toNat_lt).symm
  | cons entry rest ih =>
    obtain ⟨hash, metadata⟩ := entry
    have hfirst := hvalid _ List.mem_cons_self
    rw [removeAll, delete_none hfirst]
    obtain ⟨done, files', hdone, hcount, hbytes, hnamed', hfiles⟩ :=
      ih (fun entry hmem => hvalid entry (List.mem_cons_of_mem _ hmem))
        ((hnamed.erase (dataFile hash)).erase (metadataFile hash))
        ⟨result.removedCount + 1, result.freedBytes + metadata.size⟩
    refine ⟨done, files', hdone, ?_, ?_, hnamed', fun other hvalid' file => ?_⟩
    · rw [hcount, List.length_cons]
      dsimp only
      omega
    · rw [hbytes, List.map_cons, List.sum_cons, UInt64.toNat_add]
      dsimp only
      omega
    · rw [hfiles other hvalid' file, delete_lookup hfirst hvalid', List.map_cons]
      by_cases hrest : other ∈ rest.map Prod.fst
      · rw [if_pos hrest, if_pos (List.mem_cons_of_mem _ hrest)]
      · rw [if_neg hrest]
        by_cases hsame : other = hash
        · rw [if_pos hsame, if_pos (hsame ▸ List.mem_cons_self)]
        · rw [if_neg hsame, if_neg fun hmem => (List.mem_cons.mp hmem).elim hsame hrest]

/-- Reading depends on the two files of the hash. -/
theorem retrieve_fst_congr (blake3 : Bytes → ArtifactHash) (zstd : Zstd) {files files' : CasFiles}
    {hash : ArtifactHash}
    (hfiles : ∀ file : CasFile, files'.lookup (file.path hash) = files.lookup (file.path hash)) (io : RetrieveIo) :
    (retrieve blake3 zstd codec files' hash io).1 = (retrieve blake3 zstd codec files hash io).1 := by
  cases hvalid : validateHash hash.str with
  | error e =>
    rw [retrieve, retrieve, hashPath_of_invalid hvalid]
  | ok =>
    obtain ⟨hdataPath, hmetadataPath⟩ := paths_of_valid hvalid
    have hdata : files'.lookup (dataFile hash) = files.lookup (dataFile hash) := hfiles .data
    have hmetadata : files'.lookup (metadataFile hash) = files.lookup (metadataFile hash) := hfiles .metadata
    rw [retrieve, retrieve, hdataPath, hmetadataPath]
    dsimp only
    rw [hdata, hmetadata]
    cases files.lookup (dataFile hash) with
    | none => rfl
    | some data =>
      cases files.lookup (metadataFile hash) with
      | none => rfl
      | some json =>
        dsimp only
        cases readArtifact blake3 zstd codec hash json data io with
        | error e => rfl
        | ok artifact => cases io.touch <;> rfl

/-! ## The cleanup -/

variable (readDir codec)

/-- The artifacts that are gone. -/
def gone (files files' : CasFiles) : List ArtifactHash :=
  (list readDir files).filter fun hash => decide (hash ∉ list readDir files')

/-- What a policy chooses is gone: all but so many artifacts, none of which is newer than one that is left, or
each artifact whose description says so. -/
def ChosenGone (policy : CleanupPolicy) (clock : ArtifactHash → UnixTime) (files files' : CasFiles) : Prop :=
  match policy with
  | .keepMostRecent keep =>
    (gone readDir files files').length = (stats readDir codec files).artifactCount - keep ∧
      ∀ old ∈ gone readDir files files', ∀ kept ∈ list readDir files', ∀ oldMetadata keptMetadata,
        metadata codec files old = .ok oldMetadata → metadata codec files kept = .ok keptMetadata →
          oldMetadata.storedAt ≤ keptMetadata.storedAt
  | policy => ∀ hash ∈ list readDir files, hash ∈ gone readDir files files' ↔
      ∃ read, metadata codec files hash = .ok read ∧ policy.shouldRemoveMetadata (clock hash) read = true

/-- A cleanup did what its policy says and what its result says, and left all other artifacts. -/
structure CleanedUp (blake3 : Bytes → ArtifactHash) (zstd : Zstd) (policy : CleanupPolicy)
    (clock : ArtifactHash → UnixTime) (files files' : CasFiles) (result : CleanupResult) : Prop where
  chosen : ChosenGone readDir codec policy clock files files'
  count : (stats readDir codec files').artifactCount + result.removedCount = (stats readDir codec files).artifactCount
  bytes : (stats readDir codec files').totalBytes + result.freedBytes = (stats readDir codec files).totalBytes
  subset : list readDir files' ⊆ list readDir files
  others : ∀ hash ∈ list readDir files', ∀ io,
    (retrieve blake3 zstd codec files' hash io).1 = (retrieve blake3 zstd codec files hash io).1

variable {readDir codec}

/-- What completed stores leave is well named, and all data has a description. -/
theorem StoredOnly.described {blake3 : Bytes → ArtifactHash} {zstd : Zstd}
    (hstored : StoredOnly blake3 zstd codec files) : Described codec files := by
  induction hstored with
  | empty => exact Described.empty
  | store hfiles b artifact io hok ih =>
    exact ih.store blake3 zstd b artifact ((store_fst_ok_iff blake3 zstd codec b _ artifact io).mp hok).2.2.2

/-! ## What the removals leave -/

section Removed

variable {removed : List (ArtifactHash × ArtifactMetadata)} {files' : CasFiles}

variable (readDir) in
/-- What is listed after removals is what was listed and was not removed. -/
theorem mem_list_removed (hnamed : WellNamed files) (hnamed' : WellNamed files')
    (hfiles : ∀ hash : ArtifactHash, validateHash hash.str = .ok () → ∀ file : CasFile,
      files'.lookup (file.path hash) =
        if hash ∈ removed.map Prod.fst then none else files.lookup (file.path hash)) (hash : ArtifactHash) :
    hash ∈ list readDir files' ↔ hash ∈ list readDir files ∧ hash ∉ removed.map Prod.fst := by
  rw [mem_list_iff readDir hnamed', mem_list_iff readDir hnamed, and_assoc]
  refine and_congr_right fun hvalid => ?_
  have hdata : files'.lookup (dataFile hash) = _ := hfiles hash hvalid .data
  rw [← AList.lookup_isSome, ← AList.lookup_isSome, hdata]
  by_cases hremoved : hash ∈ removed.map Prod.fst
  · rw [if_pos hremoved]
    exact iff_of_false (fun h => by cases h) fun h => h.2 hremoved
  · rw [if_neg hremoved, and_iff_left hremoved]
    rfl

/-- What was listed is what was removed and what is listed still. -/
theorem list_perm_removed (hnamed : WellNamed files) (hnamed' : WellNamed files')
    (hsub : (removed.map Prod.fst).Subperm (list readDir files))
    (hmem : ∀ hash, hash ∈ list readDir files' ↔ hash ∈ list readDir files ∧ hash ∉ removed.map Prod.fst) :
    (list readDir files).Perm (removed.map Prod.fst ++ list readDir files') := by
  have hnodup : (removed.map Prod.fst).Nodup := by
    obtain ⟨l, hperm, hsublist⟩ := hsub
    exact hperm.nodup_iff.mp (hsublist.nodup (list_nodup readDir hnamed))
  have hdisjoint : (removed.map Prod.fst).Disjoint (list readDir files') :=
    fun hash hremoved hleft => ((hmem hash).mp hleft).2 hremoved
  refine (List.perm_ext_iff_of_nodup (list_nodup readDir hnamed)
    (hnodup.append (list_nodup readDir hnamed') hdisjoint)).mpr fun hash => ?_
  rw [List.mem_append, hmem]
  constructor
  · intro hlisted
    by_cases hremoved : hash ∈ removed.map Prod.fst
    · exact Or.inl hremoved
    · exact Or.inr ⟨hlisted, hremoved⟩
  · intro h
    exact h.elim (fun hremoved => hsub.subset hremoved) And.left

/-- What is gone is what was removed. -/
theorem mem_gone_iff (hsub : (removed.map Prod.fst).Subperm (list readDir files))
    (hmem : ∀ hash, hash ∈ list readDir files' ↔ hash ∈ list readDir files ∧ hash ∉ removed.map Prod.fst)
    (hash : ArtifactHash) : hash ∈ gone readDir files files' ↔ hash ∈ removed.map Prod.fst := by
  rw [gone, List.mem_filter, decide_eq_true_iff, hmem, not_and_not_right]
  exact ⟨fun h => h.2 h.1, fun hremoved => ⟨hsub.subset hremoved, fun _ => hremoved⟩⟩

/-- The count of what was listed is that of what was removed and of what is listed still, and so is the
number of bytes. -/
theorem stats_removed (hdescribed : Described codec files)
    (hperm : (list readDir files).Perm (removed.map Prod.fst ++ list readDir files'))
    (hread : ∀ entry ∈ removed, metadata codec files entry.1 = .ok entry.2)
    (hkept : ∀ hash ∈ list readDir files', healthy codec files' hash = healthy codec files hash) :
    (stats readDir codec files).artifactCount = removed.length + (stats readDir codec files').artifactCount ∧
      (stats readDir codec files).totalBytes.toNat =
        ((removed.map fun entry => entry.2.size.toNat).sum +
          (stats readDir codec files').totalBytes.toNat) % 2 ^ 64 := by
  have hhealthy : ∀ hash ∈ list readDir files, (healthy codec files hash).isSome = true := by
    intro hash hlisted
    obtain ⟨hvalid, hdata⟩ := (mem_list_iff readDir hdescribed.named hash).mp hlisted
    exact (healthy_isSome_iff codec files hash).mpr ⟨hdata, hdescribed.description hash hvalid hdata⟩
  have hlisted : ∀ entry ∈ removed, entry.1 ∈ list readDir files := fun entry hentry =>
    hperm.mem_iff.mpr (List.mem_append_left _ (List.mem_map_of_mem hentry))
  have hsizes : (removed.map Prod.fst).map (storedSize codec files) = removed.map fun entry => entry.2.size.toNat := by
    rw [List.map_map]
    refine List.map_congr_left fun entry hentry => ?_
    have hvalid := ((mem_list_iff readDir hdescribed.named _).mp (hlisted entry hentry)).1
    rw [Function.comp_apply, storedSize_of_healthy codec hvalid (hhealthy _ (hlisted entry hentry)),
      hread entry hentry]
    rfl
  have hleft : (list readDir files').map (storedSize codec files) =
      (list readDir files').map (storedSize codec files') :=
    List.map_congr_left fun hash hmem => by rw [storedSize, storedSize, hkept hash hmem]
  constructor
  · have hgone : (removed.map Prod.fst).countP (fun hash => (healthy codec files hash).isSome) = removed.length := by
      rw [List.countP_eq_length.mpr fun hash hmem => ?_, List.length_map]
      exact hhealthy hash (hperm.mem_iff.mpr (List.mem_append_left _ hmem))
    rw [stats_artifactCount, stats_artifactCount, hperm.countP_eq, List.countP_append, hgone]
    exact congrArg _ (List.countP_congr fun hash hmem => by rw [hkept hash hmem])
  · rw [stats_totalBytes, stats_totalBytes, (hperm.map _).sum_eq, List.map_append, List.sum_append, hsizes, hleft,
      Nat.add_mod_mod]

/-- What a policy chooses among the entries is gone when that is what was removed. -/
theorem chosenGone_removals {policy : CleanupPolicy} {clock : ArtifactHash → UnixTime}
    (hdescribed : Described codec files)
    (hmem : ∀ hash, hash ∈ list readDir files' ↔ hash ∈ list readDir files ∧
      hash ∉ (removals policy clock (entries readDir codec files)).map Prod.fst)
    (hgone : (gone readDir files files').Perm
      ((removals policy clock (entries readDir codec files)).map Prod.fst))
    (htotal : (stats readDir codec files).artifactCount = (list readDir files).length) :
    ChosenGone readDir codec policy clock files files' := by
  have hchosen : ∀ hash, hash ∈ gone readDir files files' ↔
      ∃ read, (hash, read) ∈ removals policy clock (entries readDir codec files) := by
    intro hash
    rw [hgone.mem_iff, List.mem_map]
    constructor
    · rintro ⟨entry, hentry, rfl⟩
      exact ⟨entry.2, hentry⟩
    · rintro ⟨read, hentry⟩
      exact ⟨(hash, read), hentry, rfl⟩
  have hsub := removals_subperm policy clock (entries readDir codec files)
  -- all but the policy that keeps the most recent artifacts are filters
  have hfilter : ∀ chosen : ArtifactHash × ArtifactMetadata → Bool,
      removals policy clock (entries readDir codec files) = (entries readDir codec files).filter chosen →
        ∀ hash ∈ list readDir files, hash ∈ gone readDir files files' ↔
          ∃ read, metadata codec files hash = .ok read ∧ chosen (hash, read) = true := by
    intro chosen hremovals hash hlisted
    rw [hchosen, hremovals]
    refine exists_congr fun read => ?_
    rw [List.mem_filter, mem_entries_iff, and_iff_right hlisted]
  cases policy with
  | olderThan duration =>
    exact hfilter (fun entry => (CleanupPolicy.olderThan duration).shouldRemoveMetadata (clock entry.1) entry.2) rfl
  | notAccessedIn duration =>
    exact hfilter (fun entry => (CleanupPolicy.notAccessedIn duration).shouldRemoveMetadata (clock entry.1) entry.2) rfl
  | removeTags tags =>
    exact hfilter (fun entry => (CleanupPolicy.removeTags tags).shouldRemoveMetadata (clock entry.1) entry.2) rfl
  | keepMostRecent keep =>
    refine ⟨?_, fun old hold kept hkept oldMetadata keptMetadata hreadOld hreadKept => ?_⟩
    · have hlength : (removals (.keepMostRecent keep) clock (entries readDir codec files)).length =
          (entries readDir codec files).length - keep := by
        rw [removals, List.length_drop, (List.mergeSort_perm _ _).length_eq]
      rw [hgone.length_eq, List.length_map, hlength, htotal, ← map_fst_entries hdescribed, List.length_map]
    · obtain ⟨read, hremoved⟩ := (hchosen old).mp hold
      obtain ⟨hlisted, hnot⟩ := (hmem kept).mp hkept
      have hread : metadata codec files old = .ok read := ((mem_entries_iff _).mp (hsub.subset hremoved)).2
      obtain rfl : read = oldMetadata := Except.ok.inj (hread.symm.trans hreadOld)
      have hentry : (kept, keptMetadata) ∈ entries readDir codec files :=
        (mem_entries_iff _).mpr ⟨hlisted, hreadKept⟩
      have hkeptNot : (kept, keptMetadata) ∉
          removals (.keepMostRecent keep) clock (entries readDir codec files) :=
        fun hremoved => hnot (List.mem_map.mpr ⟨_, hremoved, rfl⟩)
      have hle := storedAt_le_of_keepMostRecent hremoved hentry hkeptNot
      exact hle

end Removed

/-- A cleanup of a store that completed stores filled does what its policy and its result say. -/
theorem cleanup_cleanedUp (readDir : ReadDir) (codec : MetadataCodec) (blake3 : Bytes → ArtifactHash) (zstd : Zstd)
    (policy : CleanupPolicy) (clock : ArtifactHash → UnixTime) {files : CasFiles}
    (hstored : StoredOnly blake3 zstd codec files) :
    ∃ result files', cleanup readDir codec policy clock (fun _ => ⟨none, none⟩) files = (.ok result, files') ∧
      CleanedUp readDir codec blake3 zstd policy clock files files' result := by
  have hdescribed := hstored.described
  have hnamed := hdescribed.named
  have hsubperm := removals_subperm policy clock (entries readDir codec files)
  have hsub : ((removals policy clock (entries readDir codec files)).map Prod.fst).Subperm
      (list readDir files) := by
    obtain ⟨chosen, hperm, hsublist⟩ := hsubperm
    rw [← map_fst_entries hdescribed]
    exact ⟨chosen.map Prod.fst, hperm.map _, hsublist.map _⟩
  have hread : ∀ entry ∈ removals policy clock (entries readDir codec files),
      metadata codec files entry.1 = .ok entry.2 :=
    fun entry hentry => ((mem_entries_iff entry).mp (hsubperm.subset hentry)).2
  have hvalid : ∀ entry ∈ removals policy clock (entries readDir codec files),
      validateHash entry.1.str = .ok () := fun entry hentry =>
    ((mem_list_iff readDir hnamed _).mp (hsub.subset (List.mem_map_of_mem hentry))).1
  obtain ⟨result, files', hcleanup, hcount, hbytes, hnamed', hfiles⟩ :=
    removeAll_spec hvalid hnamed ⟨0, 0⟩
  have hmem := mem_list_removed readDir hnamed hnamed' hfiles
  have hperm := list_perm_removed hnamed hnamed' hsub hmem
  have hsame : ∀ hash ∈ list readDir files', ∀ file : CasFile,
      files'.lookup (file.path hash) = files.lookup (file.path hash) := by
    intro hash hlisted file
    rw [hfiles hash ((mem_list_iff readDir hnamed' hash).mp hlisted).1 file, if_neg ((hmem hash).mp hlisted).2]
  obtain ⟨hcounts, htotals⟩ := stats_removed hdescribed hperm hread
    fun hash hlisted => healthy_congr codec (hsame hash hlisted)
  have hgone : (gone readDir files files').Perm
      ((removals policy clock (entries readDir codec files)).map Prod.fst) := by
    have hnodup : ((removals policy clock (entries readDir codec files)).map Prod.fst).Nodup :=
      (hperm.nodup_iff.mp (list_nodup readDir hnamed)).of_append_left
    exact (List.perm_ext_iff_of_nodup ((list_nodup readDir hnamed).filter _) hnodup).mpr
      (mem_gone_iff hsub hmem)
  have htotal : (stats readDir codec files).artifactCount = (list readDir files).length := by
    rw [stats_artifactCount, List.countP_eq_length]
    intro hash hlisted
    obtain ⟨hvalidHash, hdata⟩ := (mem_list_iff readDir hnamed hash).mp hlisted
    exact (healthy_isSome_iff codec files hash).mpr ⟨hdata, hdescribed.description hash hvalidHash hdata⟩
  refine ⟨result, files', hcleanup, chosenGone_removals hdescribed hmem hgone htotal, ?_, ?_,
    fun hash hlisted => ((hmem hash).mp hlisted).1,
    fun hash hlisted io => retrieve_fst_congr blake3 zstd (hsame hash hlisted) io⟩
  · rw [hcounts, hcount]
    dsimp only
    omega
  · rw [← UInt64.toNat_inj, UInt64.toNat_add, hbytes, htotals]
    simp only [UInt64.toNat_zero, Nat.zero_add, Nat.add_mod_mod]
    rw [Nat.add_comm]

/-- A store with the sample artifact is emptied by a policy that keeps none. -/
theorem cleanup_cleanedUp_sample :
    ∃ result files', cleanup keysInOrder (.ofTable sampleDescriptions) (.keepMostRecent 0) (fun _ => ⟨10, by decide⟩)
        (fun _ => ⟨none, none⟩)
        (store sampleBlake3 sampleZstd (.ofTable sampleDescriptions) ⟨.none⟩ ∅ sampleArtifact ⟨1, none, none, none⟩).2 =
          (.ok result, files') ∧
      CleanedUp keysInOrder (.ofTable sampleDescriptions) sampleBlake3 sampleZstd (.keepMostRecent 0)
        (fun _ => ⟨10, by decide⟩)
        (store sampleBlake3 sampleZstd (.ofTable sampleDescriptions) ⟨.none⟩ ∅ sampleArtifact ⟨1, none, none, none⟩).2
        files' result := by
  have hok : (store sampleBlake3 sampleZstd (.ofTable sampleDescriptions) ⟨.none⟩ ∅ sampleArtifact
      ⟨1, none, none, none⟩).1 = .ok () := by
    decide
  exact cleanup_cleanedUp keysInOrder _ _ _ _ _ (.store .empty ⟨.none⟩ _ _ hok)

end LocalCasBackend

end Forge.Cas
