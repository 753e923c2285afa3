import Forge.Cas.LocalBackend

/-!
# Names of files in the store

The files of different hashes are different, and so are the data, the description and the
temporary files of one hash. A hash has no point in it, so a name tells by what follows its
first point what it is the name of.
-/

namespace Forge.Cas

open Forge.Common

/-- The temporary file for the data of a hash. -/
def dataTmp (hash : ArtifactHash) (process : ℕ) : CasPath :=
  (dataFile hash).withExtension ("tmp." ++ toString process)

/-- The temporary file for the description of a hash. -/
def metadataTmp (hash : ArtifactHash) (process : ℕ) : CasPath :=
  (metadataFile hash).withExtension ("tmp." ++ toString process)

/-- What has a point in it is no hash. -/
theorem point_notMem_of_validateHash {text : String} (hvalid : validateHash text = .ok ()) :
    '.' ∉ text.toList := by
  intro hpoint
  rw [validateHash] at hvalid
  split at hvalid
  · rename_i hhash
    have hbyte : (46 : UInt8) ∈ utf8Bytes text := by
      rw [← String.ofList_toList (s := text), utf8Bytes_ofList]
      exact List.mem_flatMap.mpr ⟨'.', hpoint, by decide⟩
    have hdigit := List.all_eq_true.mp hhash.2 46 hbyte
    revert hdigit
    decide
  · cases hvalid

/-- The name of a data file has no point in it. -/
theorem point_notMem_of_valid {hash : ArtifactHash} (hvalid : validateHash hash.str = .ok ()) :
    '.' ∉ (dataFile hash).name.toList := by
  intro hmem
  rw [dataFile, String.toList_ofList] at hmem
  exact point_notMem_of_validateHash hvalid (List.mem_of_mem_drop hmem)

/-- The name of a data file is not empty. -/
theorem dataFile_name_ne_nil {hash : ArtifactHash} (hvalid : validateHash hash.str = .ok ()) :
    (dataFile hash).name.toList ≠ [] := by
  intro hnil
  rw [dataFile, String.toList_ofList, List.drop_eq_nil_iff] at hnil
  rw [validateHash] at hvalid
  split at hvalid
  · rename_i hhash
    have hlength := hhash.1
    have hle := utf8Bytes_length_le hash.str
    omega
  · cases hvalid

/-- The directory and the name of a data file make the hash. -/
theorem dataFile_dir_append_name (hash : ArtifactHash) :
    (dataFile hash).dir ++ (dataFile hash).name = hash.str := by
  rw [dataFile, ← String.ofList_append, List.take_append_drop, String.ofList_toList]

/-- What follows the first point of two equal names is the same. -/
theorem extension_eq {stem stem' rest rest' : List Char} (hstem : '.' ∉ stem) (hstem' : '.' ∉ stem')
    (heq : stem ++ '.' :: rest = stem' ++ '.' :: rest') : rest = rest' := by
  have hdrop := congrArg (List.dropWhile (· ≠ '.')) heq
  have hne : ∀ {s : List Char}, '.' ∉ s → ∀ c ∈ s, decide (c ≠ '.') = true :=
    fun hs c hc => decide_eq_true fun h => hs (h ▸ hc)
  rw [List.dropWhile_append_of_pos (hne hstem), List.dropWhile_append_of_pos (hne hstem'),
    List.dropWhile_cons_of_neg (by decide), List.dropWhile_cons_of_neg (by decide)] at hdrop
  exact (List.cons.inj hdrop).2

/-- Different hashes have different files for their data. -/
theorem dataFile_injective : Function.Injective dataFile := by
  intro hash hash' heq
  have htake := congrArg (fun path : CasPath => path.dir.toList) heq
  have hdrop := congrArg (fun path : CasPath => path.name.toList) heq
  simp only [dataFile, String.toList_ofList] at htake hdrop
  have hchars : hash.str.toList = hash'.str.toList := by
    rw [← List.take_append_drop 2 hash.str.toList, htake, hdrop, List.take_append_drop]
  cases hash
  cases hash'
  exact congrArg ArtifactHash.mk (String.toList_injective hchars)

/-- Different hashes have different files for their descriptions. -/
theorem metadataFile_injective : Function.Injective metadataFile := by
  intro hash hash' heq
  have hdir := congrArg CasPath.dir heq
  have hname := congrArg (fun path : CasPath => path.name.toList) heq
  simp only [metadataFile, CasPath.withExtension, String.toList_append, List.append_assoc] at hdir hname
  have hstem := String.toList_injective (List.append_cancel_right hname)
  refine dataFile_injective ?_
  rw [CasPath.mk.injEq]
  exact ⟨hdir, hstem⟩

/-- A file with an extension does not hold data. -/
theorem withExtension_ne_dataFile {hash : ArtifactHash} (hvalid : validateHash hash.str = .ok ())
    (path : CasPath) (extension : String) : path.withExtension extension ≠ dataFile hash := by
  intro heq
  have hname := congrArg (fun path : CasPath => path.name.toList) heq
  simp only [withExtension_toList] at hname
  refine point_notMem_of_valid hvalid ?_
  rw [← hname]
  exact List.mem_append_right _ List.mem_cons_self

/-- A temporary file for data does not hold a description. -/
theorem dataTmp_ne_metadataFile {hash hash' : ArtifactHash} (hvalid : validateHash hash.str = .ok ())
    (hvalid' : validateHash hash'.str = .ok ()) (process : ℕ) : dataTmp hash process ≠ metadataFile hash' := by
  intro heq
  have hname := congrArg (fun path : CasPath => path.name.toList) heq
  simp only [dataTmp, metadataFile, withExtension_toList] at hname
  have hextension := extension_eq (point_notMem_of_valid hvalid) (point_notMem_of_valid hvalid') hname
  rw [String.toList_append] at hextension
  cases hextension

/-- A temporary file for a description does not hold one. -/
theorem metadataTmp_ne_metadataFile {hash hash' : ArtifactHash} (hvalid : validateHash hash.str = .ok ())
    (hvalid' : validateHash hash'.str = .ok ()) (process : ℕ) :
    metadataTmp hash process ≠ metadataFile hash' := by
  intro heq
  have hname := congrArg (fun path : CasPath => path.name.toList) heq
  simp only [metadataTmp, metadataFile, withExtension_toList, List.append_assoc, List.cons_append] at hname
  have hextension := extension_eq (point_notMem_of_valid hvalid) (point_notMem_of_valid hvalid') hname
  have hlength := congrArg List.length hextension
  rw [List.length_append, List.length_cons] at hlength
  omega

/-- The two temporary files of a hash are different. -/
theorem dataTmp_ne_metadataTmp {hash hash' : ArtifactHash} (hvalid : validateHash hash.str = .ok ())
    (hvalid' : validateHash hash'.str = .ok ()) (process process' : ℕ) :
    dataTmp hash process ≠ metadataTmp hash' process' := by
  intro heq
  have hname := congrArg (fun path : CasPath => path.name.toList) heq
  simp only [dataTmp, metadataTmp, metadataFile, withExtension_toList, List.append_assoc,
    List.cons_append] at hname
  have hextension := extension_eq (point_notMem_of_valid hvalid) (point_notMem_of_valid hvalid') hname
  rw [String.toList_append] at hextension
  cases hextension

end Forge.Cas
