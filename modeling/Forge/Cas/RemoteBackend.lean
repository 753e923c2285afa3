import Forge.Cas.Compression
import Forge.Common.Fallible

/-!
# The remote store of artifacts

A remote store is a server that is asked over HTTP. What it answers to a request, and how its
state changes, is not known: it is a parameter. An artifact has two addresses there, one for
its data and one for its description. Reading takes both as the server gives them.
-/

namespace Forge.Cas

open Forge.Common

/-- The secrets for a remote store. -/
structure AuthConfig where
  accessKey : Option String
  secretKey : Option String
  token : Option String
  deriving DecidableEq, Repr

/-- Where a remote store is. -/
structure RemoteConfig where
  endpoint : String
  auth : Option AuthConfig
  bucket : String
  deriving DecidableEq, Repr

/-- The methods of requests. -/
inductive Method where
  | get
  | head
  | put
  | delete
  deriving DecidableEq, Repr

/-- How a request says who sends it. -/
inductive Authorization where
  | bearer (token : String)
  | basic (username password : String)
  deriving DecidableEq, Repr

/-- A request. -/
structure HttpRequest where
  method : Method
  url : String
  auth : Option Authorization
  contentType : Option String
  body : Bytes
  deriving DecidableEq, Repr

/-- The status of a response, with the text that goes with its code. -/
structure StatusCode where
  code : ℕ
  reason : String
  deriving DecidableEq, Repr

/-- A status as text. -/
def StatusCode.display (status : StatusCode) : String := toString status.code ++ " " ++ status.reason

/-- Whether a status is one of success. -/
def StatusCode.isSuccess (status : StatusCode) : Bool := 200 ≤ status.code && status.code < 300

/-- A response. Its body can fail to arrive. -/
structure HttpResponse where
  status : StatusCode
  body : Except String Bytes

/-- The client and the server behind it: the answer to a request, which can be missing, and the
next state of the server. The client has a message for a body that is not of the right format. -/
structure HttpClient (σ : Type) where
  send : HttpRequest → σ → Except String HttpResponse × σ
  decodeError : String → String

/-- Computations that talk to a server and can fail. -/
abbrev RemoteM (σ α : Type) := ExceptT CasError (StateM σ) α

/-- What is known about a store as a whole. -/
structure CasStats where
  artifactCount : ℕ
  totalBytes : UInt64
  compressedBytes : UInt64
  backendType : String
  deriving DecidableEq, Repr

/-- A remote store. -/
structure RemoteCasBackendImpl (σ : Type) where
  client : HttpClient σ
  config : RemoteConfig
  compression : CompressionAlgorithm

namespace RemoteCasBackendImpl

variable {σ : Type}

/-- The address of the server without slashes at its end. -/
def base (remote : RemoteCasBackendImpl σ) : String :=
  String.ofList (remote.config.endpoint.toList.reverse.dropWhile (· = '/')).reverse

/-- The address of the data of an artifact. -/
def artifactUrl (remote : RemoteCasBackendImpl σ) (hash : ArtifactHash) : String :=
  remote.base ++ "/" ++ remote.config.bucket ++ "/artifacts/" ++ hash.str

/-- The address of the description of an artifact. -/
def metadataUrl (remote : RemoteCasBackendImpl σ) (hash : ArtifactHash) : String :=
  remote.base ++ "/" ++ remote.config.bucket ++ "/artifacts/" ++ hash.str ++ "/metadata"

/-- Who sends the requests: the holder of the token, or else of both keys. -/
def applyAuth (remote : RemoteCasBackendImpl σ) : Option Authorization :=
  match remote.config.auth with
  | none => none
  | some auth =>
    match auth.token, auth.accessKey, auth.secretKey with
    | some token, _, _ => some (.bearer token)
    | none, some key, some secret => some (.basic key secret)
    | none, _, _ => none

/-- A request without a body. -/
def request (remote : RemoteCasBackendImpl σ) (method : Method) (url : String) : HttpRequest :=
  ⟨method, url, remote.applyAuth, none, []⟩

/-- Send a request. -/
def send (remote : RemoteCasBackendImpl σ) (request : HttpRequest) : RemoteM σ HttpResponse := fun s =>
  match remote.client.send request s with
  | (.ok response, t) => (.ok response, t)
  | (.error e, t) => (.error (.network e), t)

/-- Go on only when the server has the artifact and answers with success. -/
def checkStatus (hash : ArtifactHash) (failure : String) (status : StatusCode) : Except CasError Unit :=
  if status.code = 404 then .error (.artifactNotFound hash.str)
  else if status.isSuccess then .ok ()
  else .error (.backendError (failure ++ "HTTP " ++ status.display))

/-- A body of a format. A body that does not arrive is an error of the same kind as one that does
not have the format. -/
def json {α : Type} (remote : RemoteCasBackendImpl σ) (codec : JsonCodec α) (response : HttpResponse) :
    Except String α :=
  match response.body with
  | .error e => .error e
  | .ok body =>
    match codec.tryFromSlice body with
    | .ok value => .ok value
    | .error e => .error (remote.client.decodeError e)

section Operations

variable (zstd : Zstd) (codec : MetadataCodec)

/-- The description that a response carries. -/
def metadataOf (remote : RemoteCasBackendImpl σ) (hash : ArtifactHash) (response : HttpResponse) :
    Except CasError ArtifactMetadata := do
  checkStatus hash "Failed to retrieve metadata from remote CAS: " response.status
  match remote.json codec response with
  | .ok metadata => .ok metadata
  | .error e => .error (.serialization e)

/-- Read a description. -/
def metadata (remote : RemoteCasBackendImpl σ) (hash : ArtifactHash) : RemoteM σ ArtifactMetadata := do
  let response ← remote.send (remote.request .get (remote.metadataUrl hash))
  metadataOf codec remote hash response

/-- The data of an artifact that a response carries, as its description says it is compressed. An
unknown algorithm is an error. -/
def dataOf (hash : ArtifactHash) (metadata : ArtifactMetadata) (response : HttpResponse) :
    Except CasError Bytes := do
  checkStatus hash "Failed to download artifact from remote CAS: " response.status
  match response.body with
  | .error e => .error (.network e)
  | .ok data =>
    match metadata.compression with
    | none => .ok data
    | some tag =>
      match CompressionAlgorithm.fromStr tag with
      | .error e => .error (.compression e)
      | .ok algorithm => decompress zstd data algorithm

/-- Read an artifact. -/
def download (remote : RemoteCasBackendImpl σ) (hash : ArtifactHash) : RemoteM σ Artifact := do
  let metadata ← metadata codec remote hash
  let response ← remote.send (remote.request .get (remote.artifactUrl hash))
  let data ← dataOf zstd hash metadata response
  return ⟨metadata, data, none⟩

/-- Read an artifact. -/
def retrieve (remote : RemoteCasBackendImpl σ) (hash : ArtifactHash) : RemoteM σ Artifact :=
  download zstd codec remote hash

/-- Go on only when the server took what was sent. -/
def checkUploaded (failure : String) (status : StatusCode) : Except CasError Unit :=
  if status.isSuccess then .ok () else .error (.backendError (failure ++ "HTTP " ++ status.display))

/-- Send an artifact, its description first. -/
def upload (remote : RemoteCasBackendImpl σ) (artifact : Artifact) : RemoteM σ Unit := do
  let (dataToStore, metadata) ← (if remote.compression ≠ .none then do
      let compressed ← compress zstd artifact.data remote.compression
      return (compressed,
        artifact.metadata.withCompression (.ofNat compressed.length) remote.compression.asStr)
    else return (artifact.data, artifact.metadata) : Except CasError (Bytes × ArtifactMetadata))
  let response ← remote.send ⟨.put, remote.metadataUrl artifact.hash, remote.applyAuth,
    some "application/json", codec.toVec metadata⟩
  checkUploaded "Failed to upload metadata to remote CAS: " response.status
  let response ← remote.send ⟨.put, remote.artifactUrl artifact.hash, remote.applyAuth,
    some "application/octet-stream", dataToStore⟩
  checkUploaded "Failed to upload artifact data to remote CAS: " response.status

/-- Store an artifact. -/
def store (remote : RemoteCasBackendImpl σ) (artifact : Artifact) : RemoteM σ Unit :=
  upload zstd codec remote artifact

/-- Whether the server answers for the description of an artifact. No answer means no. -/
def existsArtifact (remote : RemoteCasBackendImpl σ) (hash : ArtifactHash) : RemoteM σ Bool := fun s =>
  match remote.client.send (remote.request .head (remote.metadataUrl hash)) s with
  | (.ok response, t) => (.ok response.status.isSuccess, t)
  | (.error _, t) => (.ok false, t)

/-- Ask to delete an artifact. The answers do not matter. -/
def delete (remote : RemoteCasBackendImpl σ) (hash : ArtifactHash) : RemoteM σ Unit := fun s =>
  let (_, s) := remote.client.send (remote.request .delete (remote.artifactUrl hash)) s
  let (_, s) := remote.client.send (remote.request .delete (remote.metadataUrl hash)) s
  (.ok (), s)

/-- The hashes that the server lists, or none if it does not answer with a list. -/
def list (hashes : JsonCodec (List ArtifactHash)) (remote : RemoteCasBackendImpl σ) :
    RemoteM σ (List ArtifactHash) := do
  let response ← remote.send (remote.request .get
    (remote.base ++ "/" ++ remote.config.bucket ++ "/artifacts"))
  if response.status.isSuccess then return (remote.json hashes response).toOption.getD [] else return []

/-- What the server says about itself, or nothing if it does not answer. -/
def stats (casStats : JsonCodec CasStats) (remote : RemoteCasBackendImpl σ) : RemoteM σ CasStats := fun s =>
  match remote.client.send (remote.request .get
    (remote.base ++ "/" ++ remote.config.bucket ++ "/stats")) s with
  | (.error _, t) => (.ok ⟨0, 0, 0, "remote"⟩, t)
  | (.ok response, t) =>
    if response.status.isSuccess then
      (.ok ((remote.json casStats response).toOption.getD ⟨0, 0, 0, "remote"⟩), t)
    else (.ok ⟨0, 0, 0, "remote"⟩, t)

/-- A description is read from the answer to one request. -/
theorem metadata_eq_ok_iff {remote : RemoteCasBackendImpl σ} {hash : ArtifactHash} {s t : σ}
    {metadata' : ArtifactMetadata} :
    metadata codec remote hash s = (.ok metadata', t) ↔
      ∃ response, remote.send (remote.request .get (remote.metadataUrl hash)) s = (.ok response, t) ∧
        metadataOf codec remote hash response = .ok metadata' := by
  rw [metadata, bind_run_eq_ok_iff]
  refine exists_congr fun response => ?_
  constructor
  · intro h
    obtain ⟨s', hsend, hlift⟩ := h
    obtain ⟨hmetadata, rfl⟩ := lift_run_eq_ok_iff.mp hlift
    exact ⟨hsend, hmetadata⟩
  · intro h
    obtain ⟨hsend, hmetadata⟩ := h
    exact ⟨t, hsend, lift_run_eq_ok_iff.mpr ⟨hmetadata, rfl⟩⟩

/-- An artifact is read from the answers to two requests, and from nothing else. -/
theorem download_eq_ok_iff {remote : RemoteCasBackendImpl σ} {hash : ArtifactHash} {s t : σ}
    {artifact : Artifact} :
    download zstd codec remote hash s = (.ok artifact, t) ↔
      ∃ metadata' s' response, metadata codec remote hash s = (.ok metadata', s') ∧
        remote.send (remote.request .get (remote.artifactUrl hash)) s' = (.ok response, t) ∧
        dataOf zstd hash metadata' response = .ok artifact.data ∧
        artifact = ⟨metadata', artifact.data, none⟩ := by
  rw [download, bind_run_eq_ok_iff]
  refine exists_congr fun metadata' => exists_congr fun s' => ?_
  rw [bind_run_eq_ok_iff]
  constructor
  · intro h
    obtain ⟨hmetadata, response, s'', hsend, hdata⟩ := h
    rw [bind_run_eq_ok_iff] at hdata
    obtain ⟨data, t', hlift, hartifact⟩ := hdata
    obtain ⟨hdecode, rfl⟩ := lift_run_eq_ok_iff.mp hlift
    cases hartifact
    exact ⟨response, hmetadata, hsend, hdecode, rfl⟩
  · intro h
    obtain ⟨response, hmetadata, hsend, hdata, hartifact⟩ := h
    refine ⟨hmetadata, response, t, hsend, ?_⟩
    rw [bind_run_eq_ok_iff]
    refine ⟨artifact.data, t, lift_run_eq_ok_iff.mpr ⟨hdata, rfl⟩, ?_⟩
    rw [← hartifact]
    rfl

end Operations

end RemoteCasBackendImpl

end Forge.Cas
