import Forge.Common.Files
import Forge.Common.JsonCodec
import Forge.Common.Programs
import Forge.Common.Text
import Forge.RemoteCache.Protocol

/-!
# The server of the remote cache

The server keeps fingerprints and artifacts in memory. With a storage directory it also writes
them to files: a fingerprint to a file that is named by its key, an artifact to an object that is
named by the hash of its contents, and the index of the objects to one file. Every file is written
under a temporary name and renamed. A request is a program over single accesses to memory and
files, so that other requests can come in between and the server can be stopped there.
-/

namespace Forge.RemoteCache

open Forge.Common

/-- A table with keys. -/
abbrev Table := AList fun _ : String => String

/-- A file below the storage directory. -/
inductive StoragePath where
  | fingerprint (name : String)
  | object (name : String)
  | artifact (name : String)
  deriving DecidableEq, Repr

/-- The files below the storage directory. -/
abbrev StorageFiles := Files StoragePath

/-- How a table is written as text and read back. What was written reads back, in any order. -/
structure TableCodec where
  toStr : Table → String
  fromStr : String → Option Table
  fromStr_toStr : ∀ table, ∃ table', fromStr (toStr table) = some table' ∧ table'.entries.Perm table.entries

/-- What the server uses: an encoding of bytes as text, the hash of bytes, the alphanumeric characters of
Unicode, and the format of the index. -/
structure Libraries where
  encode : Bytes → String
  decode : String → Except String Bytes
  blobHash : Bytes → String
  isAlphanumeric : Char → Bool
  codec : TableCodec

/-- What the server knows and what is on disk. -/
structure ServerState where
  fingerprints : Table
  artifacts : AList fun _ : String => Bytes
  artifactIndex : Table
  files : StorageFiles

/-- An access to memory or to a file. -/
inductive ServerOp where
  | insertFingerprint (key fingerprint : String)
  | readFingerprint (key : String)
  | countFingerprints
  | insertArtifact (hash : String) (bytes : Bytes)
  | readArtifact (hash : String)
  | insertIndex (hash contentHash : String)
  | readIndex (hash : String)
  | snapshotIndex
  | writeFile (path : StoragePath) (bytes : Bytes)
  | renameFile (src dst : StoragePath)
  | readFile (path : StoragePath)

/-- What an access responds. -/
def ServerOp.Response : ServerOp → Type
  | insertFingerprint _ _ | insertArtifact _ _ | insertIndex _ _ => Unit
  | readFingerprint _ | readIndex _ => Option String
  | countFingerprints => ℕ
  | readArtifact _ | readFile _ => Option Bytes
  | snapshotIndex => Bytes
  | writeFile _ _ | renameFile _ _ => Bool

/-- A program over the accesses of the server. -/
abbrev ServerM := Program ServerOp ServerOp.Response

/-- What an access does. The file system does not fail, but there can be no file to rename. -/
def ServerOp.perform (lib : Libraries) : (op : ServerOp) → ServerState → op.Response × ServerState
  | .insertFingerprint key fingerprint, s => ((), { s with fingerprints := s.fingerprints.insert key fingerprint })
  | .readFingerprint key, s => (s.fingerprints.lookup key, s)
  | .countFingerprints, s => (s.fingerprints.entries.length, s)
  | .insertArtifact hash bytes, s => ((), { s with artifacts := s.artifacts.insert hash bytes })
  | .readArtifact hash, s => (s.artifacts.lookup hash, s)
  | .insertIndex hash contentHash, s => ((), { s with artifactIndex := s.artifactIndex.insert hash contentHash })
  | .readIndex hash, s => (s.artifactIndex.lookup hash, s)
  | .snapshotIndex, s => (utf8Bytes (lib.codec.toStr s.artifactIndex), s)
  | .writeFile path bytes, s => (true, { s with files := s.files.insert path bytes })
  | .renameFile src dst, s =>
    match Files.rename s.files src dst with
    | some files => (true, { s with files := files })
    | none => (false, s)
  | .readFile path, s => (s.files.lookup path, s)

/-- The file of a fingerprint. -/
def fingerprintFile (key : String) : StoragePath := .fingerprint (key ++ ".json")

/-- The file of a fingerprint while it is written. -/
def fingerprintTmp (key : String) : StoragePath := .fingerprint (key ++ ".tmp")

/-- The file of an object. -/
def objectFile (hash : String) : StoragePath := .object hash

/-- The file of an object while it is written. -/
def objectTmp (hash : String) : StoragePath := .object (hash ++ ".tmp")

/-- The file of the index. -/
def indexFile : StoragePath := .artifact "index.json"

/-- The file of the index while it is written. -/
def indexTmp : StoragePath := .artifact "index.json.tmp"

namespace ServerM

/-- Keep a fingerprint in memory. -/
def insertFingerprint (key fingerprint : String) : ServerM Unit :=
  Program.perform (ServerOp.insertFingerprint key fingerprint)

/-- Find a fingerprint in memory. -/
def readFingerprint (key : String) : ServerM (Option String) := Program.perform (ServerOp.readFingerprint key)

/-- Count the fingerprints in memory. -/
def countFingerprints : ServerM ℕ := Program.perform ServerOp.countFingerprints

/-- Keep an artifact in memory. -/
def insertArtifact (hash : String) (bytes : Bytes) : ServerM Unit :=
  Program.perform (ServerOp.insertArtifact hash bytes)

/-- Find an artifact in memory. -/
def readArtifact (hash : String) : ServerM (Option Bytes) := Program.perform (ServerOp.readArtifact hash)

/-- Name an object in the index. -/
def insertIndex (hash contentHash : String) : ServerM Unit :=
  Program.perform (ServerOp.insertIndex hash contentHash)

/-- Find the name of an object in the index. -/
def readIndex (hash : String) : ServerM (Option String) := Program.perform (ServerOp.readIndex hash)

/-- The text of the index. -/
def snapshotIndex : ServerM Bytes := Program.perform ServerOp.snapshotIndex

/-- Write a file. -/
def writeFile (path : StoragePath) (bytes : Bytes) : ServerM Bool :=
  Program.perform (ServerOp.writeFile path bytes)

/-- Rename a file. -/
def renameFile (src dst : StoragePath) : ServerM Bool := Program.perform (ServerOp.renameFile src dst)

/-- Read a file. -/
def readFile (path : StoragePath) : ServerM (Option Bytes) := Program.perform (ServerOp.readFile path)

/-- Write a file under a temporary name, and rename it if that worked. -/
def placeFile (tmp target : StoragePath) (bytes : Bytes) : ServerM Unit := do
  let written ← writeFile tmp bytes
  if written then
    let _ ← renameFile tmp target

end ServerM

section Requests

open ServerM

variable (lib : Libraries) (storageDir expectedToken : Option String)

/-- Keep a fingerprint in memory, and in a file if the key can name one. -/
def putFingerprint (key fingerprint : String) : ServerM CacheResponse := do
  insertFingerprint key fingerprint
  match storageDir, safeKeyIdentifier lib.isAlphanumeric key with
  | some _, some safeK => placeFile (fingerprintTmp safeK) (fingerprintFile safeK) (utf8Bytes fingerprint)
  | _, _ => pure ()
  return .putFingerprintResult key true none

/-- Find a fingerprint in memory. -/
def getFingerprint (key : String) : ServerM CacheResponse := do
  match ← readFingerprint key with
  | some fp => return .fingerprint key true (some fp) none
  | none => return .fingerprint key false none none

/-- Read the object that the index names for a hash. -/
def readObject (hash : String) : ServerM (Option Bytes) :=
  match storageDir with
  | some _ => do
    match (← readIndex hash).bind (safeKeyIdentifier lib.isAlphanumeric) with
    | some safeH => readFile (objectFile safeH)
    | none => return none
  | none => return none

/-- Find an artifact in memory or among the objects. -/
def findArtifact (hash : String) : ServerM (Option Bytes) := do
  match ← readArtifact hash with
  | some data => return some data
  | none => readObject lib storageDir hash

/-- Answer with an artifact. -/
def getArtifact (hash : String) : ServerM CacheResponse := do
  match ← findArtifact lib storageDir hash with
  | some data => return .artifact hash true (some (lib.encode data)) none
  | none => return .artifact hash false none none

/-- Keep an artifact in memory, and in an object that the index names. -/
def putArtifact (hash : String) (bytes : Bytes) : ServerM CacheResponse := do
  insertArtifact hash bytes
  match storageDir, safeKeyIdentifier lib.isAlphanumeric (lib.blobHash bytes) with
  | some _, some safeH =>
    placeFile (objectTmp safeH) (objectFile safeH) bytes
    insertIndex hash safeH
    let snapshot ← snapshotIndex
    placeFile indexTmp indexFile snapshot
  | _, _ => pure ()
  return .putArtifactResult hash true none

/-- Tell how many fingerprints there are. -/
def ping : ServerM CacheResponse := do
  let storedEntries ← countFingerprints
  return .pong "ok" "0.3.0" storedEntries none

/-- Answer a request. Every kind of request checks the token first. -/
def processRequest : CacheRequest → ServerM CacheResponse
  | .ping authToken =>
    if checkAuth expectedToken authToken = false then
      return .pong "unauthorized" "0.3.0" 0 (some "invalid authentication token")
    else ping
  | .getFingerprint key authToken =>
    if checkAuth expectedToken authToken = false then
      return .fingerprint key false none (some "unauthorized")
    else getFingerprint key
  | .putFingerprint key fingerprint authToken =>
    if checkAuth expectedToken authToken = false then
      return .putFingerprintResult key false (some "unauthorized")
    else putFingerprint lib storageDir key fingerprint
  | .getArtifact hash authToken =>
    if checkAuth expectedToken authToken = false then
      return .artifact hash false none (some "unauthorized")
    else getArtifact lib storageDir hash
  | .putArtifact hash dataBase64 authToken =>
    if checkAuth expectedToken authToken = false then
      return .putArtifactResult hash false (some "unauthorized")
    else
      match lib.decode dataBase64 with
      | .error err => return .putArtifactResult hash false (some ("invalid base64 payload: " ++ err))
      | .ok bytes => putArtifact lib storageDir hash bytes

end Requests

/-! ## Writing files -/

/-- What is there when a file was written under a temporary name and renamed. -/
def ServerState.place (s : ServerState) (tmp target : StoragePath) (bytes : Bytes) : ServerState :=
  { s with files := AList.insert target bytes ((s.files.insert tmp bytes).erase tmp) }

section Placing

variable (lib : Libraries)

/-- Renaming a file that was just written. -/
theorem perform_renameFile_written (s : ServerState) (tmp target : StoragePath) (bytes : Bytes) :
    ServerOp.perform lib (.renameFile tmp target) { s with files := s.files.insert tmp bytes } =
      (true, s.place tmp target bytes) := by
  simp only [ServerOp.perform, Files.rename_insert]
  rfl

/-- Writing a file and renaming it, before something else. -/
theorem run_placeFile_bind {α : Type} (s : ServerState) (tmp target : StoragePath) (bytes : Bytes)
    (f : Unit → ServerM α) :
    (ServerM.placeFile tmp target bytes >>= f).run (ServerOp.perform lib) s =
      (f ()).run (ServerOp.perform lib) (s.place tmp target bytes) := by
  change (f ()).run (ServerOp.perform lib)
    (ServerOp.perform lib (.renameFile tmp target) { s with files := s.files.insert tmp bytes }).2 = _
  rw [perform_renameFile_written]

variable {lib}

/-- What holds while a file is written and renamed, and while something else is done after that. -/
theorem throughout_placeFile_bind {α : Type} {I : ServerState → Prop} {s : ServerState}
    {tmp target : StoragePath} {bytes : Bytes} {f : Unit → ServerM α} (hstart : I s)
    (hwritten : I { s with files := s.files.insert tmp bytes })
    (hrest : (f ()).Throughout (ServerOp.perform lib) I (s.place tmp target bytes)) :
    (ServerM.placeFile tmp target bytes >>= f).Throughout (ServerOp.perform lib) I s := by
  refine ⟨hstart, hwritten, ?_⟩
  change (f ()).Throughout (ServerOp.perform lib) I
    (ServerOp.perform lib (.renameFile tmp target) { s with files := s.files.insert tmp bytes }).2
  rw [perform_renameFile_written]
  exact hrest

end Placing

/-! ## Reading -/

/-- What is found for a hash, in memory or among the objects. -/
def ServerState.artifactData (lib : Libraries) (storageDir : Option String) (s : ServerState) (hash : String) :
    Option Bytes :=
  match s.artifacts.lookup hash with
  | some data => some data
  | none =>
    match storageDir with
    | some _ =>
      ((s.artifactIndex.lookup hash).bind (safeKeyIdentifier lib.isAlphanumeric)).bind
        fun safeH => s.files.lookup (objectFile safeH)
    | none => none

section Reading

variable (lib : Libraries) (s : ServerState)

/-- Finding a fingerprint. -/
theorem run_getFingerprint (key : String) :
    (getFingerprint key).run (ServerOp.perform lib) s =
      (match s.fingerprints.lookup key with
        | some fp => .fingerprint key true (some fp) none
        | none => .fingerprint key false none none, s) := by
  change (Program.run (ServerOp.perform lib) (match s.fingerprints.lookup key with
    | some fp => _
    | none => _) s) = _
  cases s.fingerprints.lookup key with
  | some fp => rfl
  | none => rfl

/-- Finding an artifact in memory or among the objects. -/
theorem run_findArtifact (storageDir : Option String) (hash : String) :
    (findArtifact lib storageDir hash).run (ServerOp.perform lib) s =
      (s.artifactData lib storageDir hash, s) := by
  change Program.run (ServerOp.perform lib) (match s.artifacts.lookup hash with
    | some data => _
    | none => readObject lib storageDir hash) s = _
  unfold ServerState.artifactData
  cases s.artifacts.lookup hash with
  | some data => rfl
  | none =>
    cases storageDir with
    | none => rfl
    | some dir =>
      change Program.run (ServerOp.perform lib)
        (match (s.artifactIndex.lookup hash).bind (safeKeyIdentifier lib.isAlphanumeric) with
          | some safeH => ServerM.readFile (objectFile safeH)
          | none => _) s = _
      cases (s.artifactIndex.lookup hash).bind (safeKeyIdentifier lib.isAlphanumeric) with
      | some safeH => rfl
      | none => rfl

/-- Finding an artifact. -/
theorem run_getArtifact (storageDir : Option String) (hash : String) :
    (getArtifact lib storageDir hash).run (ServerOp.perform lib) s =
      (match s.artifactData lib storageDir hash with
        | some data => .artifact hash true (some (lib.encode data)) none
        | none => .artifact hash false none none, s) := by
  rw [getArtifact, Program.run_bind, run_findArtifact]
  cases s.artifactData lib storageDir hash with
  | some data => rfl
  | none => rfl

variable {lib s} {I : ServerState → Prop}

/-- Finding a fingerprint changes nothing. -/
theorem throughout_getFingerprint (hstate : I s) (key : String) :
    (getFingerprint key).Throughout (ServerOp.perform lib) I s := by
  refine ⟨hstate, ?_⟩
  change Program.Throughout (ServerOp.perform lib) I (match s.fingerprints.lookup key with
    | some fp => _
    | none => _) s
  cases s.fingerprints.lookup key with
  | some fp => exact hstate
  | none => exact hstate

/-- Finding an artifact in memory or among the objects changes nothing. -/
theorem throughout_findArtifact (hstate : I s) (storageDir : Option String) (hash : String) :
    (findArtifact lib storageDir hash).Throughout (ServerOp.perform lib) I s := by
  refine ⟨hstate, ?_⟩
  change Program.Throughout (ServerOp.perform lib) I (match s.artifacts.lookup hash with
    | some data => _
    | none => readObject lib storageDir hash) s
  cases s.artifacts.lookup hash with
  | some data => exact hstate
  | none =>
    cases storageDir with
    | none => exact hstate
    | some dir =>
      refine ⟨hstate, ?_⟩
      change Program.Throughout (ServerOp.perform lib) I
        (match (s.artifactIndex.lookup hash).bind (safeKeyIdentifier lib.isAlphanumeric) with
          | some safeH => ServerM.readFile (objectFile safeH)
          | none => _) s
      cases (s.artifactIndex.lookup hash).bind (safeKeyIdentifier lib.isAlphanumeric) with
      | some safeH => exact ⟨hstate, hstate⟩
      | none => exact hstate

/-- Finding an artifact changes nothing. -/
theorem throughout_getArtifact (hstate : I s) (storageDir : Option String) (hash : String) :
    (getArtifact lib storageDir hash).Throughout (ServerOp.perform lib) I s := by
  refine (throughout_findArtifact hstate storageDir hash).bind ?_
  rw [run_findArtifact]
  cases s.artifactData lib storageDir hash with
  | some data => exact hstate
  | none => exact hstate

end Reading

/-! ## The server -/

/-- The order in which the file system gives the names of the fingerprint files. -/
structure ReadDir where
  entries : StorageFiles → List String
  mem_entries_iff : ∀ files name, name ∈ entries files ↔ StoragePath.fingerprint name ∈ files

/-- The name of a fingerprint file. -/
def StoragePath.fingerprintName : StoragePath → Option String
  | fingerprint name => some name
  | _ => none

/-- The names in the order in which the files are kept. -/
def namesInOrder : ReadDir where
  entries files := files.keys.filterMap StoragePath.fingerprintName
  mem_entries_iff files name := by
    rw [List.mem_filterMap]
    constructor
    · rintro ⟨path, hmem, hname⟩
      cases path with
      | fingerprint name' =>
        cases hname
        exact AList.mem_keys.mpr hmem
      | object name' => cases hname
      | artifact name' => cases hname
    · intro hmem
      exact ⟨.fingerprint name, AList.mem_keys.mp hmem, rfl⟩

/-- The name of a file without its extension. -/
def fileStem (name : String) : String := String.ofList (splitExtension name.toList).1

/-- What is loaded from a fingerprint file, if it is text. -/
def loadedFingerprint (files : StorageFiles) (name : String) : Option String :=
  ((files.lookup (.fingerprint name)).bind fromUtf8).map fun content => String.ofList (trim content.toList)

/-- Load the fingerprint files. -/
def loadFingerprints (files : StorageFiles) (names : List String) : Table :=
  names.foldl (fun guard name =>
    match loadedFingerprint files name with
    | some content => guard.insert (fileStem name) content
    | none => guard) ∅

/-- Load the index, if there is one that can be read. -/
def loadIndex (codec : TableCodec) (files : StorageFiles) : Table :=
  (((files.lookup indexFile).bind fromUtf8).bind codec.fromStr).getD ∅

/-- A server with its token, its storage directory and its state. -/
structure RemoteCacheServer where
  authToken : Option String
  storageDir : Option String
  state : ServerState

namespace RemoteCacheServer

variable (lib : Libraries)

/-- A new server loads the fingerprints and the index from its storage directory. -/
def new (readDir : ReadDir) (authToken storageDir : Option String) (files : StorageFiles) : RemoteCacheServer :=
  match storageDir with
  | some dir =>
    ⟨authToken, some dir, ⟨loadFingerprints files (readDir.entries files), ∅, loadIndex lib.codec files, files⟩⟩
  | none => ⟨authToken, none, ⟨∅, ∅, ∅, files⟩⟩

/-- The program that answers a request. -/
def program (server : RemoteCacheServer) (req : CacheRequest) : ServerM CacheResponse :=
  processRequest lib server.storageDir server.authToken req

/-- Answer a request. -/
def handle (server : RemoteCacheServer) (req : CacheRequest) : CacheResponse × RemoteCacheServer :=
  let (response, state) := (server.program lib req).run (ServerOp.perform lib) server.state
  (response, { server with state := state })

end RemoteCacheServer

/-! ## Formats that are given by examples -/

/-- Tables are compared by their entries. -/
instance : DecidableEq Table := fun table table' =>
  decidable_of_iff (table.entries = table'.entries) AList.ext_iff.symm

instance : Encodable Table :=
  Encodable.ofLeftInjection (fun table => table.entries.map fun entry => (entry.1, entry.2))
    (fun pairs =>
      let entries := pairs.map fun pair => (⟨pair.1, pair.2⟩ : (_ : String) × String)
      if hkeys : entries.keys.Nodup then some ⟨entries, hkeys⟩ else none)
    (fun table => by
      have hentries : (table.entries.map fun entry => (entry.1, entry.2)).map
          (fun pair => (⟨pair.1, pair.2⟩ : (_ : String) × String)) = table.entries := by
        rw [List.map_map]
        exact List.map_id _
      simp only [hentries]
      exact dif_pos table.nodupKeys)

/-- A format that keeps the order of the entries. -/
def TableCodec.ofJson (codec : JsonCodec Table) : TableCodec where
  toStr := codec.toStr
  fromStr text := (codec.fromStr text).toOption
  fromStr_toStr table := ⟨table, by rw [codec.fromStr_toStr]; rfl, List.Perm.refl _⟩

/-- The hash of the byte 1. -/
def sampleHash : String := "48fc721fbbc172e0925fa27af1671de225ba927134802998b10a1568a188652b"

/-- The hash of the byte 2. -/
def otherHash : String := "ab13bedf42e84bae0f7c62c7dd6a8ada571e8829bed6ea558217f0361b5e25d0"

/-- Indices of one and of two artifacts and their texts. -/
def sampleTables : JsonCodec.Table Table where
  known :=
    [((∅ : Table).insert "a" sampleHash, "\x7b\"a\":\"" ++ sampleHash ++ "\"\x7d"),
      (((∅ : Table).insert "a" sampleHash).insert "b" otherHash,
        "\x7b\"b\":\"" ++ otherHash ++ "\",\"a\":\"" ++ sampleHash ++ "\"\x7d")]
  texts_nodup := by
    rw [List.map_cons, List.map_cons, List.map_nil, List.nodup_cons, List.mem_singleton]
    refine ⟨fun heq => ?_, List.nodup_singleton _⟩
    have hchars := congrArg (fun text => text.toList[2]?) heq
    simp only [String.toList_append, List.append_assoc] at hchars
    revert hchars
    decide
  nonzero := by
    intro entry hmem
    rcases List.mem_pair.mp hmem with rfl | rfl
    · simp only [String.toList_append, List.append_assoc]
      decide
    · simp only [String.toList_append, List.append_assoc]
      decide

/-- Libraries that know two bytes. -/
def sampleLibraries : Libraries where
  encode bytes := if bytes = [1] then "AQ==" else if bytes = [2] then "Ag==" else ""
  decode text :=
    if text = "AQ==" then .ok [1] else if text = "Ag==" then .ok [2] else .error "Invalid padding"
  blobHash bytes := if bytes = [1] then sampleHash else otherHash
  isAlphanumeric := Char.isAlphanum
  codec := .ofJson (.ofTable sampleTables)

/-!
## Requests without the token

A server with a token answers a request that does not carry it from the request alone: it reads
and changes neither memory nor files.
-/

variable (lib : Libraries)

/-- The answer to a request without the token. -/
def CacheRequest.refusal : CacheRequest → CacheResponse
  | ping _ => .pong "unauthorized" "0.3.0" 0 (some "invalid authentication token")
  | getFingerprint key _ => .fingerprint key false none (some "unauthorized")
  | putFingerprint key _ _ => .putFingerprintResult key false (some "unauthorized")
  | getArtifact hash _ => .artifact hash false none (some "unauthorized")
  | putArtifact hash _ _ => .putArtifactResult hash false (some "unauthorized")

/-- A request that fails the check ends before it does anything. -/
theorem processRequest_of_unauthorized (storageDir : Option String) {expectedToken : Option String}
    {req : CacheRequest} (hauth : checkAuth expectedToken req.authToken = false) :
    processRequest lib storageDir expectedToken req = .done req.refusal := by
  cases req <;> exact if_pos hauth

/-- A request that passes the check is answered as by a server without a token. -/
theorem processRequest_of_authorized (storageDir : Option String) {expectedToken : Option String}
    {req : CacheRequest} (hauth : checkAuth expectedToken req.authToken = true) :
    processRequest lib storageDir expectedToken req = processRequest lib storageDir none req := by
  have hfree : ∀ token, checkAuth none token = true := fun _ => rfl
  cases req <;> simp only [processRequest, CacheRequest.authToken] at hauth ⊢ <;>
    simp only [hauth, hfree, Bool.true_eq_false, if_false]

namespace RemoteCacheServer

/-- A server refuses a request that fails the check and stays as it is. -/
theorem handle_of_unauthorized {server : RemoteCacheServer} {req : CacheRequest}
    (hauth : checkAuth server.authToken req.authToken = false) :
    server.handle lib req = (req.refusal, server) := by
  rw [handle, program, processRequest_of_unauthorized lib _ hauth]
  rfl

/-- A request without the token of the servers is answered in the same way by both, whatever they
know and store, and changes neither. A request is answered exactly when it has the token byte by
byte, and then as if no token were needed. -/
theorem unauthorized_learns_nothing (expected : String) (s t : RemoteCacheServer)
    (hs : s.authToken = some expected) (ht : t.authToken = some expected) (req : CacheRequest) :
    (req.authToken ≠ some expected →
      (s.handle lib req).1 = (t.handle lib req).1 ∧ (s.handle lib req).2 = s ∧ (t.handle lib req).2 = t) ∧
    (checkAuth s.authToken req.authToken = true ↔
      ∃ token, req.authToken = some token ∧ utf8Bytes token = utf8Bytes expected) ∧
    (checkAuth s.authToken req.authToken = true →
      s.program lib req = { s with authToken := none }.program lib req) := by
  refine ⟨fun htoken => ?_, ?_, fun hauth => processRequest_of_authorized lib _ hauth⟩
  · have hfails : checkAuth (some expected) req.authToken = false :=
      Bool.eq_false_iff.mpr fun h => htoken ((checkAuth_some_iff expected _).mp h)
    have hfails' := hfails
    rw [← hs] at hfails
    rw [← ht] at hfails'
    rw [handle_of_unauthorized lib hfails, handle_of_unauthorized lib hfails']
    exact ⟨rfl, rfl, rfl⟩
  · rw [hs, checkAuth_some_iff]
    constructor
    · intro h
      exact ⟨expected, h, rfl⟩
    · intro h
      obtain ⟨token, htoken, hbytes⟩ := h
      rw [htoken, utf8Bytes_injective hbytes]

/-- A server that knows a fingerprint and one that knows nothing answer the same to a wrong token. -/
theorem unauthorized_learns_nothing_wrong_token :
    let known : RemoteCacheServer := ⟨some "secret", none, ⟨(∅ : Table).insert "k" "fp", ∅, ∅, ∅⟩⟩
    let blank : RemoteCacheServer := ⟨some "secret", none, ⟨∅, ∅, ∅, ∅⟩⟩
    (known.handle sampleLibraries (.getFingerprint "k" (some "guess"))).1 =
      (blank.handle sampleLibraries (.getFingerprint "k" (some "guess"))).1 :=
  ((unauthorized_learns_nothing sampleLibraries "secret" _ _ rfl rfl
    (.getFingerprint "k" (some "guess"))).1 (by decide)).1

end RemoteCacheServer

end Forge.RemoteCache
