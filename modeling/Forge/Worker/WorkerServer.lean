import Forge.Common.Machine
import Forge.Common.Text
import Forge.Executor.Task

/-!
# The worker server

Every connection has a thread of its own, which reads one line, acts on it, and writes one
response. The threads share a counter of the jobs that run. A job is counted before its
source is unpacked and until its command has run. What requests say on the wire, and what
unpacking, running and writing come to, is up to the environment.
-/

namespace Forge.Worker

open Forge.Common Forge.Executor

/-- The source that comes with a task. -/
structure SourceContext where
  format : String
  useVfs : Option Bool
  deriving DecidableEq, Repr

/-- A request to run a task. -/
structure RemoteTaskRequest where
  taskId : String
  authToken : Option String
  source : Option SourceContext
  deriving DecidableEq, Repr

/-- A request for a file. -/
structure VfsFileRequest where
  filePath : String
  authToken : Option String
  deriving DecidableEq, Repr

/-- A request for the state of the worker. -/
structure WorkerPingRequest where
  authToken : Option String
  deriving DecidableEq, Repr

/-- The answer to a request to run a task. -/
structure RemoteTaskResponse where
  taskId : String
  exitCode : Option ℤ
  stdout : String
  stderr : String
  durationMs : ℕ
  error : Option String
  deriving DecidableEq, Repr

/-- The answer to a request for a file. -/
structure VfsFileResponse where
  success : Bool
  contentBase64 : Option String
  error : Option String
  deriving DecidableEq, Repr

/-- What a worker says about itself. -/
structure WorkerHealthInfo where
  workerName : String
  activeJobs : ℕ
  maxConcurrency : ℕ
  uptimeSecs : ℕ
  memoryUsedBytes : Option ℕ
  memoryTotalBytes : Option ℕ
  deriving DecidableEq, Repr

/-- The answer to a request for the state of the worker. -/
structure WorkerPingResponse where
  status : String
  health : WorkerHealthInfo
  error : Option String
  deriving DecidableEq, Repr

/-- The answers. -/
inductive Response where
  | task (response : RemoteTaskResponse)
  | vfs (response : VfsFileResponse)
  | ping (response : WorkerPingResponse)
  deriving DecidableEq, Repr

/-- How requests are read from the wire. -/
structure WireFormat where
  taskRequest : String → Option RemoteTaskRequest
  vfsRequest : String → Option VfsFileRequest
  pingRequest : String → Option WorkerPingRequest

/-- The options of a worker. -/
structure WorkerServer where
  wire : WireFormat
  authToken : Option String
  workerName : String
  maxConcurrency : ℕ

/-- What unpacking a source comes to, step by step. -/
structure UnpackIo where
  decode : Except String Unit
  tempdir : Except String String
  unpack : Except String Unit
  mount : Except String Unit

/-- Unpack a source into a new directory. -/
def unpackSource (ctx : SourceContext) (io : UnpackIo) : Except String String := do
  if ctx.format ≠ "tar.zst" then throw ("unsupported source format: " ++ ctx.format)
  io.decode
  let root ← io.tempdir
  io.unpack
  return root

/-- Unpack a source into a new directory and into the virtual file system. -/
def unpackSourceToVfs (ctx : SourceContext) (io : UnpackIo) : Except String String := do
  if ctx.format ≠ "tar.zst" then throw ("unsupported source format: " ++ ctx.format)
  io.decode
  let tempRoot ← io.tempdir
  io.unpack
  io.mount
  return tempRoot

/-- Unpack the source of a request, if it has one. -/
def RemoteTaskRequest.sourceDir (req : RemoteTaskRequest) (io : UnpackIo) : Except String (Option String) :=
  match req.source with
  | none => .ok none
  | some ctx =>
    match (if ctx.useVfs.getD false then unpackSourceToVfs ctx io else unpackSource ctx io) with
    | .ok root => .ok (some root)
    | .error e => .error e

/-- Where a connection stands. -/
inductive Phase where
  /-- Nothing was read yet. -/
  | reading
  /-- A task is to be counted. -/
  | accepted (req : RemoteTaskRequest)
  /-- A task is counted, its source is to be unpacked. -/
  | counted (req : RemoteTaskRequest)
  /-- A task is counted, its command is to be run. -/
  | prepared (req : RemoteTaskRequest) (sourceDir : Option String)
  /-- A task is counted, its command has run. -/
  | executed (req : RemoteTaskRequest) (outcome : Except String TaskOutcome)
  /-- A file is to be read. -/
  | serving (req : VfsFileRequest)
  /-- The counter is to be read for the state of the worker. -/
  | pinged (authorized : Bool)
  /-- A response is to be written. -/
  | responding (response : Response)
  /-- The call has returned. -/
  | returned (result : Except String Unit)
  /-- The call has returned with an error while its task was counted. -/
  | abandoned (e : String)
  deriving DecidableEq

/-- What a connection does next, with what this comes to. -/
inductive Action where
  | readLine (read : Except String String)
  | increment
  | unpack (io : UnpackIo)
  | execute (outcome : Except String TaskOutcome)
  | decrement (durationMs : ℕ)
  | readFile (content : Except String String)
  | load (uptimeSecs : ℕ)
  | respond (result : Except String Unit)

namespace WorkerServer

/-- Whether a request carries another token than the expected one. -/
def refuses (server : WorkerServer) (authToken : Option String) : Bool :=
  server.authToken.isSome && authToken != server.authToken

/-- What to do with a line that was read. -/
def route (server : WorkerServer) (line : String) : Phase :=
  let trimmed := String.ofList (trim line.toList)
  if trimmed = "" then .returned (.ok ())
  else
    match server.wire.taskRequest trimmed with
    | some req =>
      if server.refuses req.authToken then
        .responding (.task ⟨req.taskId, some 1, "", "unauthorized: invalid auth token", 0,
          some "unauthorized"⟩)
      else .accepted req
    | none =>
      match server.wire.vfsRequest trimmed with
      | some req =>
        if server.refuses req.authToken then .responding (.vfs ⟨false, none, some "unauthorized"⟩)
        else .serving req
      | none =>
        match server.wire.pingRequest trimmed with
        | some req => .pinged (!server.refuses req.authToken)
        | none =>
          .responding (.task ⟨"unknown", some 1, "", "invalid request wire format", 0,
            some "invalid_request"⟩)

/-- The response to a task that ran. -/
def taskResponse (req : RemoteTaskRequest) (outcome : Except String TaskOutcome) (durationMs : ℕ) :
    RemoteTaskResponse :=
  match outcome with
  | .ok out =>
    ⟨req.taskId, out.exitCode.or (if out.status = .failed then some 1 else some 0), out.stdout,
      out.stderr, durationMs, none⟩
  | .error e => ⟨req.taskId, some 1, "", e, durationMs, some e⟩

/-- The response to a request for the state of the worker. -/
def pingResponse (server : WorkerServer) (authorized : Bool) (currentJobs uptimeSecs : ℕ) :
    WorkerPingResponse where
  status := if authorized then "ok" else "unauthorized"
  health := ⟨server.workerName, currentJobs, server.maxConcurrency, uptimeSecs,
    some (currentJobs * 64 * 1024 * 1024), some (1024 * 1024 * 1024 * 8)⟩
  error := if authorized then none else some "invalid authentication token"

/-- What a connection becomes by an action, and the counter after it. -/
def perform (server : WorkerServer) (activeJobs : ℕ) : Phase → Action → Option (Phase × ℕ)
  | .reading, .readLine (.error e) => some (.returned (.error e), activeJobs)
  | .reading, .readLine (.ok line) =>
    some (if line = "" then .returned (.ok ()) else server.route line, activeJobs)
  | .accepted req, .increment => some (.counted req, activeJobs + 1)
  | .counted req, .unpack io =>
    match req.sourceDir io with
    | .ok dir => some (.prepared req dir, activeJobs)
    | .error e => some (.abandoned e, activeJobs)
  | .prepared req _, .execute outcome => some (.executed req outcome, activeJobs)
  | .executed req outcome, .decrement durationMs =>
    some (.responding (.task (taskResponse req outcome durationMs)), activeJobs - 1)
  | .serving _, .readFile (.ok content) =>
    some (.responding (.vfs ⟨true, some content, none⟩), activeJobs)
  | .serving _, .readFile (.error e) => some (.responding (.vfs ⟨false, none, some e⟩), activeJobs)
  | .pinged authorized, .load uptimeSecs =>
    some (.responding (.ping (server.pingResponse authorized activeJobs uptimeSecs)), activeJobs)
  | .responding _, .respond result => some (.returned result, activeJobs)
  | _, _ => none

end WorkerServer

/-- The counter and all connections there have been. -/
structure WorkerState where
  activeJobs : ℕ
  connections : List Phase
  deriving DecidableEq

/-- A connection is accepted, or one of them goes on. -/
inductive WorkerEvent where
  | accept
  | act (id : ℕ) (action : Action)

namespace WorkerServer

/-- The server before its first connection. -/
def start : WorkerState := ⟨0, []⟩

/-- All orders in which connections are accepted and go on. -/
def machine (server : WorkerServer) : Machine WorkerState WorkerEvent where
  step
    | s, .accept => some { s with connections := s.connections ++ [.reading] }
    | s, .act id action =>
      match s.connections[id]? with
      | none => none
      | some phase =>
        match server.perform s.activeJobs phase action with
        | none => none
        | some (phase, activeJobs) => some ⟨activeJobs, s.connections.set id phase⟩

end WorkerServer

end Forge.Worker
