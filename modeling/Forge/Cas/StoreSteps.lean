import Forge.Cas.Layout
import Forge.Common.Interleaving

/-!
# Storing step by step

An artifact is stored in four accesses to files: the data is written under a temporary name
and renamed, and then the description. Other processes and other calls of the same process
can act between two of them, and the process can stop there.
-/

namespace Forge.Cas

open Forge.Common

/-- An access to a file. -/
inductive FileOp where
  | write (path : CasPath) (bytes : Bytes)
  | rename (src dst : CasPath)
  deriving DecidableEq, Repr

/-- What an access does. A rename fails when there is no such file. -/
def FileOp.perform : FileOp → CasFiles → Except CasError Unit × CasFiles
  | .write path bytes, files => (.ok (), AList.insert path bytes files)
  | .rename src dst, files =>
    match Files.rename files src dst with
    | some files => (.ok (), files)
    | none => (.error (.io "No such file or directory (os error 2)"), files)

/-- A rename puts the file in place, or there is no such file. -/
theorem FileOp.perform_rename_cases (src dst : CasPath) (files : CasFiles) :
    (∃ bytes, files.lookup src = some bytes ∧
      perform (.rename src dst) files = (.ok (), AList.insert dst bytes (files.erase src))) ∨
      (files.lookup src = none ∧ ∃ e, perform (.rename src dst) files = (.error e, files)) := by
  rw [perform, Files.rename]
  cases files.lookup src with
  | some bytes => exact Or.inl ⟨bytes, rfl, rfl⟩
  | none => exact Or.inr ⟨rfl, _, rfl⟩

/-- Programs that access files and can fail. -/
abbrev FileM := ExceptT CasError (Program FileOp fun _ => Except CasError Unit)

/-- Write a file. -/
def writeFile (path : CasPath) (bytes : Bytes) : FileM Unit := Program.attempt (.write path bytes)

/-- Rename a file. -/
def renameFile (src dst : CasPath) : FileM Unit := Program.attempt (.rename src dst)

/-- One of the two files of an artifact. -/
inductive CasFile where
  | data
  | metadata
  deriving DecidableEq, Repr

namespace CasFile

/-- Where the file is. -/
def path (hash : ArtifactHash) : CasFile → CasPath
  | data => dataFile hash
  | metadata => metadataFile hash

/-- Where the file is while it is written. -/
def tmp (hash : ArtifactHash) (process : ℕ) : CasFile → CasPath
  | data => dataTmp hash process
  | metadata => metadataTmp hash process

/-- The accesses that put a file in place. -/
def ops (file : CasFile) (hash : ArtifactHash) (process : ℕ) (bytes : Bytes) : List FileOp :=
  [.write (file.tmp hash process) bytes, .rename (file.tmp hash process) (file.path hash)]

/-- How many accesses come before a file is written. -/
def first : CasFile → ℕ
  | data => 0
  | metadata => 2

/-- The files are written after different numbers of accesses. -/
theorem first_injective : Function.Injective first := by
  intro file file' heq
  cases file <;> cases file' <;> first | rfl | cases heq

/-- No file is written when another is to be renamed. -/
theorem first_ne_succ (file file' : CasFile) : file.first ≠ file'.first + 1 := by
  cases file <;> cases file' <;> decide

variable {hash : ArtifactHash}

/-- The next access in storing both files writes one of them, or renames it. -/
theorem ops_drop_cases {process n : ℕ} (bytes : CasFile → Bytes) {op : FileOp} {rest : List FileOp}
    (hdrop : (data.ops hash process (bytes data) ++ metadata.ops hash process (bytes metadata)).drop n =
      op :: rest) :
    ∃ file : CasFile, (n = file.first ∧ op = .write (file.tmp hash process) (bytes file)) ∨
      (n = file.first + 1 ∧ op = .rename (file.tmp hash process) (file.path hash)) := by
  rcases n with _ | _ | _ | _ | n
  · cases hdrop
    exact ⟨data, Or.inl ⟨rfl, rfl⟩⟩
  · cases hdrop
    exact ⟨data, Or.inr ⟨rfl, rfl⟩⟩
  · cases hdrop
    exact ⟨metadata, Or.inl ⟨rfl, rfl⟩⟩
  · cases hdrop
    exact ⟨metadata, Or.inr ⟨rfl, rfl⟩⟩
  · simp [ops] at hdrop

/-- The two files are different. -/
theorem path_injective (hvalid : validateHash hash.str = .ok ()) : Function.Injective (path hash) := by
  intro file file' heq
  cases file <;> cases file'
  · rfl
  · exact absurd heq.symm (withExtension_ne_dataFile hvalid _ _)
  · exact absurd heq (withExtension_ne_dataFile hvalid _ _)
  · rfl

/-- The two temporary files are different. -/
theorem tmp_injective (hvalid : validateHash hash.str = .ok ()) (process : ℕ) :
    Function.Injective (tmp hash process) := by
  intro file file' heq
  cases file <;> cases file'
  · rfl
  · exact absurd heq (dataTmp_ne_metadataTmp hvalid hvalid _ _)
  · exact absurd heq.symm (dataTmp_ne_metadataTmp hvalid hvalid _ _)
  · rfl

/-- A temporary file is in nobody's place. -/
theorem tmp_ne_path {hash' : ArtifactHash} (hvalid : validateHash hash.str = .ok ())
    (hvalid' : validateHash hash'.str = .ok ()) (process : ℕ) (file file' : CasFile) :
    file.tmp hash process ≠ file'.path hash' := by
  cases file <;> cases file'
  · exact withExtension_ne_dataFile hvalid' _ _
  · exact dataTmp_ne_metadataFile hvalid hvalid' _
  · exact withExtension_ne_dataFile hvalid' _ _
  · exact metadataTmp_ne_metadataFile hvalid hvalid' _

/-- Different hashes have different files. -/
theorem path_ne_path {hash' : ArtifactHash} (hvalid : validateHash hash.str = .ok ())
    (hvalid' : validateHash hash'.str = .ok ()) (hne : hash ≠ hash') (file file' : CasFile) :
    file.path hash ≠ file'.path hash' := by
  cases file <;> cases file'
  · exact fun heq => hne (dataFile_injective heq)
  · exact (withExtension_ne_dataFile hvalid _ _).symm
  · exact withExtension_ne_dataFile hvalid' _ _
  · exact fun heq => hne (metadataFile_injective heq)

/-- The files of hashes are the same only when the hashes are. -/
theorem path_eq_path_iff {hash' : ArtifactHash} (hvalid : validateHash hash.str = .ok ())
    (hvalid' : validateHash hash'.str = .ok ()) (file file' : CasFile) :
    file.path hash = file'.path hash' ↔ file = file' ∧ hash = hash' := by
  constructor
  · intro heq
    by_cases hhash : hash = hash'
    · subst hhash
      exact ⟨path_injective hvalid heq, rfl⟩
    · exact absurd heq (path_ne_path hvalid hvalid' hhash file file')
  · intro h
    rw [h.1, h.2]

end CasFile

namespace LocalCasBackend

variable (blake3 : Bytes → ArtifactHash) (zstd : Zstd) (codec : MetadataCodec)

/-- Store an artifact. -/
def storeSteps (b : LocalCasBackend) (artifact : Artifact) (process : ℕ) : FileM Unit := do
  let (dataPath, metadataPath, dataToStore, metadata) ← liftM (prepare blake3 zstd b artifact none)
  let tmpData := dataPath.withExtension ("tmp." ++ toString process)
  writeFile tmpData dataToStore
  renameFile tmpData dataPath
  let tmpMeta := metadataPath.withExtension ("tmp." ++ toString process)
  writeFile tmpMeta (codec.toVec metadata)
  renameFile tmpMeta metadataPath

/-- Storing does nothing when the artifact cannot be prepared. -/
theorem storeSteps_of_error {b : LocalCasBackend} {artifact : Artifact} {e : CasError}
    (hprepare : prepare blake3 zstd b artifact none = .error e) (process : ℕ) :
    storeSteps blake3 zstd codec b artifact process = Program.done (.error e) := by
  rw [storeSteps, hprepare]
  rfl

/-- Otherwise it puts the two files in place. -/
theorem storeSteps_of_ok {b : LocalCasBackend} {artifact : Artifact} {dataPath metadataPath : CasPath}
    {dataToStore : Bytes} {metadata : ArtifactMetadata}
    (hprepare : prepare blake3 zstd b artifact none = .ok (dataPath, metadataPath, dataToStore, metadata))
    (process : ℕ) :
    storeSteps blake3 zstd codec b artifact process = Program.sequence
      (CasFile.data.ops artifact.hash process dataToStore ++
        CasFile.metadata.ops artifact.hash process (codec.toVec metadata)) := by
  obtain ⟨_, _, _, _, rfl, rfl⟩ := (prepare_ok_iff blake3 zstd b artifact none _).mp hprepare
  rw [storeSteps, hprepare]
  change (writeFile _ _ >>= fun _ => renameFile _ _ >>= fun _ => writeFile _ _ >>= fun _ =>
    renameFile _ _ : FileM Unit) = _
  rw [writeFile, renameFile, writeFile, renameFile,
    Program.attempt_eq_sequence (FileOp.rename _ (metadataFile artifact.hash)), Program.attempt_bind_sequence,
     Program.attempt_bind_sequence, Program.attempt_bind_sequence]
  rfl

/-- The accesses that put a file in place do not fail. -/
theorem perform_ops (file : CasFile) (hash : ArtifactHash) (process : ℕ) (bytes : Bytes)
    (files : CasFiles) :
    FileOp.perform (.write (file.tmp hash process) bytes) files =
        (.ok (), AList.insert (file.tmp hash process) bytes files) ∧
      FileOp.perform (.rename (file.tmp hash process) (file.path hash))
          (AList.insert (file.tmp hash process) bytes files) =
        (.ok (), (writeRenamed files (file.tmp hash process) (file.path hash) bytes none).2) := by
  refine ⟨rfl, ?_⟩
  rw [FileOp.perform, Files.rename_insert, writeRenamed_none]

/-- Putting a file in place. -/
theorem run_ops (file : CasFile) (hash : ArtifactHash) (process : ℕ) (bytes : Bytes) (ops : List FileOp)
    (files : CasFiles) :
    (Program.sequence (file.ops hash process bytes ++ ops)).run FileOp.perform files =
      (Program.sequence ops).run FileOp.perform
        (writeRenamed files (file.tmp hash process) (file.path hash) bytes none).2 := by
  obtain ⟨hwrite, hrename⟩ := perform_ops file hash process bytes files
  rw [CasFile.ops, List.cons_append, List.cons_append, List.nil_append,
    Program.run_sequence_cons hwrite, Program.run_sequence_cons hrename]

/-- A call of the store that nothing comes between is the store. -/
theorem run_storeSteps (b : LocalCasBackend) (artifact : Artifact) (process : ℕ) (files : CasFiles) :
    Program.run FileOp.perform (storeSteps blake3 zstd codec b artifact process) files =
      store blake3 zstd codec b files artifact ⟨process, none, none, none⟩ := by
  rw [store]
  cases hprepare : prepare blake3 zstd b artifact none with
  | error e =>
    rw [storeSteps_of_error blake3 zstd codec hprepare]
    rfl
  | ok prepared =>
    obtain ⟨dataPath, metadataPath, dataToStore, metadata⟩ := prepared
    obtain ⟨_, _, _, _, rfl, rfl⟩ := (prepare_ok_iff blake3 zstd b artifact none _).mp hprepare
    rw [storeSteps_of_ok blake3 zstd codec hprepare, run_ops, ← List.append_nil (CasFile.ops _ _ _ _),
      run_ops]
    dsimp only
    rw [writeRenamed_none, writeRenamed_none, writeRenamed_none]
    dsimp only
    rw [writeRenamed_none]
    rfl

end LocalCasBackend

end Forge.Cas
