import Forge.Cas.RemoteBackend
import Forge.Cas.StoreSteps
import Forge.Common.Text
import Mathlib.Algebra.GroupWithZero.Nat
import Mathlib.Algebra.Group.Nat.Defs

/-!
# What the local store lists

Listing walks over the files and takes their names for hashes: the name of a description or
of a temporary file is none. What is known about the store as a whole is collected from the
descriptions of the hashes that are listed. The file system does not fail in these, and gives the
files in any order. Sums are those of 64 bits.
-/

namespace Forge.Cas

open Forge.Common

/-- The order in which the file system gives the files. -/
structure ReadDir where
  entries : CasFiles → List CasPath
  perm : ∀ files, (entries files).Perm files.keys

/-- The files in the order in which they are kept. -/
def keysInOrder : ReadDir := ⟨AList.keys, fun _ => List.Perm.refl _⟩

/-- Where the file system fails while an artifact is deleted. -/
structure DeleteIo where
  data : Option String
  metadata : Option String

/-- The hash that a file is listed as, if it is listed. -/
def CasPath.listedHash (path : CasPath) : Option ArtifactHash :=
  let (stem, extension) := splitExtension path.name.toList
  if extension = some "meta".toList then none
  else
    let fullHash := path.dir ++ String.ofList stem
    match validateHash fullHash with
    | .ok () => some ⟨fullHash⟩
    | .error _ => none

namespace LocalCasBackend

section Operations

variable (readDir : ReadDir) (codec : MetadataCodec)

/-- Read a description. -/
def metadata (files : CasFiles) (hash : ArtifactHash) : Except CasError ArtifactMetadata := do
  let metadataPath ← metadataPath hash
  match files.lookup metadataPath with
  | none => throw (.artifactNotFound hash.str)
  | some metadataJson =>
    let metadata ← readMetadata codec metadataJson none
    if metadata.hash ≠ hash then
      throw (.hash ("stored metadata failed integrity verification for " ++ "`" ++ hash.str ++ "`"))
    return metadata

/-- Remove a file if it is there. -/
def removeFile (files : CasFiles) (path : CasPath) (fault : Option String) : Except CasError Unit × CasFiles :=
  if path ∈ files then
    match fault with
    | some source => (.error (.io source), files)
    | none => (.ok (), files.erase path)
  else (.ok (), files)

/-- Delete an artifact. -/
def delete (files : CasFiles) (hash : ArtifactHash) (io : DeleteIo) : Except CasError Unit × CasFiles :=
  match hashPath hash, metadataPath hash with
  | .error e, _ => (.error e, files)
  | _, .error e => (.error e, files)
  | .ok dataPath, .ok metadataPath =>
    match removeFile files dataPath io.data with
    | (.error e, files) => (.error e, files)
    | (.ok (), files) => removeFile files metadataPath io.metadata

/-- The hashes of the files. -/
def list (files : CasFiles) : List ArtifactHash := (readDir.entries files).filterMap CasPath.listedHash

/-- The description of a hash and the number of bytes in its data file, if both files are there and
the description is one of this hash. -/
def healthy (files : CasFiles) (hash : ArtifactHash) : Option (ArtifactMetadata × ℕ) :=
  match files.lookup (dataFile hash), files.lookup (metadataFile hash) with
  | some data, some metadataJson =>
    match codec.fromSlice metadataJson with
    | some metadata => if metadata.hash = hash then some (metadata, data.length) else none
    | none => none
  | _, _ => none

/-- Count an artifact. -/
def countArtifact (files : CasFiles) (stats : CasStats) (hash : ArtifactHash) : CasStats :=
  match healthy codec files hash with
  | some (metadata, len) =>
    { stats with
      artifactCount := stats.artifactCount + 1
      totalBytes := stats.totalBytes + metadata.size
      compressedBytes := stats.compressedBytes + .ofNat len }
  | none => stats

/-- What is known about the store as a whole. -/
def stats (files : CasFiles) : CasStats :=
  (list readDir files).foldl (countArtifact codec files) ⟨0, 0, 0, "local"⟩

end Operations

end LocalCasBackend

/-! ## Names of files -/

/-- A data file is listed as its hash. -/
theorem listedHash_dataFile {hash : ArtifactHash} (hvalid : validateHash hash.str = .ok ()) :
    (dataFile hash).listedHash = some hash := by
  rw [CasPath.listedHash, splitExtension_of_notMem (point_notMem_of_valid hvalid)]
  simp only [reduceCtorEq, if_false, String.ofList_toList, dataFile_dir_append_name, hvalid]

/-- A description is not listed. -/
theorem listedHash_metadataFile {hash : ArtifactHash} (hvalid : validateHash hash.str = .ok ()) :
    (metadataFile hash).listedHash = none := by
  rw [CasPath.listedHash, metadataFile, withExtension_toList,
    splitExtension_append (dataFile_name_ne_nil hvalid) (by decide)]
  exact if_pos rfl

/-- A number has no point in it. -/
theorem point_notMem_toString (n : ℕ) : '.' ∉ (toString n).toList := by
  intro hpoint
  have hdigit : '.'.isDigit = true := by
    rw [Nat.toString_eq_ofList_toDigits, String.toList_ofList] at hpoint
    exact Nat.isDigit_of_mem_toDigits (by decide) (by decide) hpoint
  revert hdigit
  decide

/-- A temporary file is not listed. -/
theorem listedHash_tmp (hash : ArtifactHash) (process : ℕ) (file : CasFile) :
    (file.tmp hash process).listedHash = none := by
  have hname : (file.tmp hash process).name.toList =
      ((file.path hash).name.toList ++ '.' :: "tmp".toList) ++ '.' :: (toString process).toList := by
    have htmp : file.tmp hash process = (file.path hash).withExtension ("tmp." ++ toString process) := by
      cases file <;> rfl
    rw [htmp, withExtension_toList, String.toList_append, List.append_assoc]
    rfl
  have hstem : (file.path hash).name.toList ++ '.' :: "tmp".toList ≠ [] :=
    List.append_ne_nil_of_right_ne_nil _ (List.cons_ne_nil _ _)
  rw [CasPath.listedHash, hname, splitExtension_append hstem (point_notMem_toString process)]
  dsimp only
  split
  · rfl
  · cases hfull : validateHash ((file.tmp hash process).dir ++
        String.ofList ((file.path hash).name.toList ++ '.' :: "tmp".toList)) with
    | error e => rfl
    | ok =>
      refine absurd ?_ (point_notMem_of_validateHash hfull)
      rw [String.toList_append, String.toList_ofList]
      exact List.mem_append_right _ (List.mem_append_right _ List.mem_cons_self)

/-- The path is that of a file for a hash, or of a temporary one. -/
def CasPath.Named (path : CasPath) : Prop :=
  ∃ (hash : ArtifactHash) (file : CasFile), validateHash hash.str = .ok () ∧
    (path = file.path hash ∨ ∃ process, path = file.tmp hash process)

/-- All files are those of hashes, or temporary ones for them. -/
def WellNamed (files : CasFiles) : Prop := ∀ path ∈ files, path.Named

/-- Among well named files, only data files are listed. -/
theorem WellNamed.listedHash_eq_some_iff {files : CasFiles} (hnamed : WellNamed files) {path : CasPath}
    (hpath : path ∈ files) (hash : ArtifactHash) :
    path.listedHash = some hash ↔ validateHash hash.str = .ok () ∧ path = dataFile hash := by
  constructor
  · intro hlisted
    obtain ⟨hash', file, hvalid, rfl | ⟨process, rfl⟩⟩ := hnamed path hpath
    · cases file with
      | data =>
        rw [CasFile.path, listedHash_dataFile hvalid] at hlisted
        cases hlisted
        exact ⟨hvalid, rfl⟩
      | metadata =>
        rw [CasFile.path, listedHash_metadataFile hvalid] at hlisted
        cases hlisted
    · rw [listedHash_tmp] at hlisted
      cases hlisted
  · intro h
    rw [h.2]
    exact listedHash_dataFile h.1

/-! ## Lists and counts -/

namespace LocalCasBackend

variable (readDir : ReadDir) (codec : MetadataCodec) {files : CasFiles}

/-- The hashes that are listed are those with a data file. -/
theorem mem_list_iff (hnamed : WellNamed files) (hash : ArtifactHash) :
    hash ∈ list readDir files ↔ validateHash hash.str = .ok () ∧ dataFile hash ∈ files := by
  rw [list, List.mem_filterMap]
  constructor
  · intro h
    obtain ⟨path, hentry, hlisted⟩ := h
    have hpath : path ∈ files := AList.mem_keys.mpr ((readDir.perm files).mem_iff.mp hentry)
    obtain ⟨hvalid, rfl⟩ := (hnamed.listedHash_eq_some_iff hpath hash).mp hlisted
    exact ⟨hvalid, hpath⟩
  · intro h
    exact ⟨dataFile hash, (readDir.perm files).mem_iff.mpr (AList.mem_keys.mp h.2),
      listedHash_dataFile h.1⟩

/-- No hash is listed twice. -/
theorem list_nodup (hnamed : WellNamed files) : (list readDir files).Nodup := by
  have hkeys : (readDir.entries files).Nodup := (readDir.perm files).nodup_iff.mpr files.keys_nodup
  rw [list, List.Nodup, List.pairwise_filterMap]
  refine hkeys.imp_of_mem fun hpath hpath' hne hash hlisted hash' hlisted' heq => hne ?_
  rw [heq] at hlisted
  rw [((hnamed.listedHash_eq_some_iff (AList.mem_keys.mpr ((readDir.perm files).mem_iff.mp hpath)) _).mp
      hlisted).2,
    ((hnamed.listedHash_eq_some_iff (AList.mem_keys.mpr ((readDir.perm files).mem_iff.mp hpath')) _).mp
      hlisted').2]

/-- What is known about a hash comes from its two files. -/
theorem healthy_congr {files files' : CasFiles} {hash : ArtifactHash}
    (hfiles : ∀ file : CasFile, files'.lookup (file.path hash) = files.lookup (file.path hash)) :
    healthy codec files' hash = healthy codec files hash := by
  rw [healthy, healthy, show files'.lookup (dataFile hash) = _ from hfiles .data,
    show files'.lookup (metadataFile hash) = _ from hfiles .metadata]
  rfl

/-- What a hash adds to the number of bytes. -/
def storedSize (files : CasFiles) (hash : ArtifactHash) : ℕ :=
  match healthy codec files hash with
  | some (metadata, _) => metadata.size.toNat
  | none => 0

/-- What a hash adds is the size in its description, if it has both files. -/
theorem storedSize_of_lookup {hash : ArtifactHash} {data metadataJson : Bytes}
    (hdata : files.lookup (dataFile hash) = some data)
    (hmetadata : files.lookup (metadataFile hash) = some metadataJson) :
    storedSize codec files hash = match codec.fromSlice metadataJson with
      | some metadata => if metadata.hash = hash then metadata.size.toNat else 0
      | none => 0 := by
  rw [storedSize, healthy, hdata, hmetadata]
  dsimp only
  cases codec.fromSlice metadataJson with
  | none => rfl
  | some metadata =>
    by_cases hhash : metadata.hash = hash
    · simp only [if_pos hhash]
    · simp only [if_neg hhash]

/-- A hash adds at most the size in its description. -/
theorem storedSize_le {hash : ArtifactHash} {metadataJson : Bytes} {metadata : ArtifactMetadata}
    (hmetadata : files.lookup (metadataFile hash) = some metadataJson)
    (hread : codec.fromSlice metadataJson = some metadata) :
    storedSize codec files hash ≤ metadata.size.toNat := by
  cases hdata : files.lookup (dataFile hash) with
  | none =>
    rw [storedSize, healthy, hdata]
    exact Nat.zero_le _
  | some data =>
    rw [storedSize_of_lookup codec hdata hmetadata, hread]
    dsimp only
    split
    · exact Nat.le_refl _
    · exact Nat.zero_le _

/-- A hash without a description adds nothing. -/
theorem storedSize_of_none {hash : ArtifactHash} (hmetadata : files.lookup (metadataFile hash) = none) :
    storedSize codec files hash = 0 := by
  rw [storedSize, healthy, hmetadata]
  cases files.lookup (dataFile hash) with
  | none => rfl
  | some data => rfl

/-- Counting the artifacts of a list. -/
theorem foldl_countArtifact (hashes : List ArtifactHash) (start : CasStats) :
    (hashes.foldl (countArtifact codec files) start).artifactCount =
        start.artifactCount + hashes.countP (fun hash => (healthy codec files hash).isSome) ∧
      (hashes.foldl (countArtifact codec files) start).totalBytes.toNat =
        (start.totalBytes.toNat + (hashes.map (storedSize codec files)).sum) % 2 ^ 64 := by
  induction hashes generalizing start with
  | nil => exact ⟨rfl, (Nat.mod_eq_of_lt start.totalBytes.toNat_lt).symm⟩
  | cons hash hashes ih =>
    obtain ⟨hcount, htotal⟩ := ih (countArtifact codec files start hash)
    rw [List.foldl_cons, hcount, htotal, List.countP_cons, List.map_cons, List.sum_cons, storedSize,
      countArtifact]
    cases healthy codec files hash with
    | none => exact ⟨rfl, by simp only [Nat.zero_add]⟩
    | some found =>
      simp only [Option.isSome_some, if_true, UInt64.toNat_add]
      omega

/-- The number of artifacts is the number of hashes that are listed and have a description. -/
theorem stats_artifactCount : (stats readDir codec files).artifactCount =
    (list readDir files).countP fun hash => (healthy codec files hash).isSome := by
  rw [stats, (foldl_countArtifact codec _ _).1]
  exact Nat.zero_add _

/-- The number of bytes is the sum of the sizes, in 64 bits. -/
theorem stats_totalBytes : (stats readDir codec files).totalBytes.toNat =
    ((list readDir files).map (storedSize codec files)).sum % 2 ^ 64 := by
  rw [stats, (foldl_countArtifact codec _ _).2]
  exact congrArg (· % 2 ^ 64) (Nat.zero_add _)

end LocalCasBackend

end Forge.Cas
