import Forge.Common.JsonCodec
import Forge.Common.Text
import Mathlib.Algebra.Group.Nat.Defs
import Mathlib.Data.List.AList

/-!
# The language server

The server keeps the texts of documents and answers requests about them. A text is checked
when it arrives: each unknown key has a notification of its own, and a text that is not TOML
has one. The requests of the editor are JSON values.
-/

namespace Forge.Cli.Lsp

open Forge.Common

/-- The keys of a configuration, with their types and what is said about them. -/
def configKeys : List (String × String × String) :=
  [("backend", "string", "Primary toolchain adapter for the workspace (e.g. `rust`, `go`, `ts`, `py`, `cc`, `docker`, `java`, `dotnet`, `swift`, `dart`, `zig`, `plugin`)."),
    ("jobs", "integer", "Maximum concurrent worker tasks (0 = auto, based on logical CPU count)."),
    ("no_cache", "boolean", "When true, bypasses both local and remote Content-Addressable Storage (CAS) caches."),
    ("sandbox", "boolean", "Enables process isolation using Linux Bubblewrap, macOS sandbox-exec, or Windows Job Objects."),
    ("timeout", "integer", "Per-task timeout in seconds."),
    ("profile", "string", "Named configuration profile to apply."),
    ("tui", "boolean", "Render the interactive terminal UI during builds."),
    ("remote_cache", "string", "HTTP/gRPC endpoint for the remote artifact cache server."),
    ("remote_cache_token", "string", "Bearer authentication token for the remote cache."),
    ("remote_workers", "array", "Remote cluster worker node endpoints (e.g. `[\"worker1:9000\", \"worker2:9000\"]`)."),
    ("remote_workers_token", "string", "Bearer authentication token for remote workers."),
    ("cache_dir", "string", "Path to the local Content-Addressable Storage (CAS) directory (default `~/.fish/cache`)."),
    ("send_source", "boolean", "Upload source snapshots to remote workers."),
    ("ram_limit", "integer", "Memory usage threshold percentage to dynamically throttle concurrency and prevent OOM."),
    ("semantic", "boolean", "Enables AST-level semantic change detection to avoid rebuilding downstream packages when the public interface is unchanged."),
    ("ramdisk", "boolean", "Materialize the local cache on a RAM disk for faster I/O."),
    ("swarm", "boolean", "Enable LAN peer discovery for distributed caching."),
    ("reflink", "boolean", "Enables Copy-on-Write (CoW) materialization of cached artifacts."),
    ("hermetic_trace", "boolean", "Trace file access to detect undeclared inputs/outputs."),
    ("swarm_compute", "boolean", "Advertise this machine as a swarm compute worker."),
    ("critical_path", "boolean", "Prioritizes tasks along the longest dependency chain in the DAG."),
    ("turbo_link", "boolean", "Use a fast linker (mold/lld) when available."),
    ("speculative", "boolean", "Enable speculative pre-compilation on idle cores."),
    ("daemon_pool", "boolean", "Use the compiler daemon pool."),
    ("kernel_bypass", "boolean", "Enable kernel-bypass experimental I/O."),
    ("wasm_sandbox", "boolean", "Run plugins inside a Wasm sandbox."),
    ("super_opt", "boolean", "Enable binary super-optimization.")]

/-! ## Texts -/

/-- A TOML value, as far as its keys are concerned. -/
inductive TomlValue where
  | table (keys : List String) (distinct : keys.Nodup)
  | other

/-- The keys of a table. -/
def TomlValue.keys : TomlValue → List String
  | .table keys _ => keys
  | .other => []

/-- The parser of TOML. -/
abbrev TomlParser := String → Option TomlValue

/-- What is shown for a key. -/
def getHoverDocumentation (key : String) : String :=
  match configKeys.find? fun entry => entry.1 == key with
  | some (name, ty, doc) => "**" ++ name ++ "** (`" ++ ty ++ "`)\n\n" ++ doc
  | none => "### Fish Manifest Configuration Key\n`" ++ key ++
      "` is not a known `fish.toml` key. See `fish --help` for the supported schema."

/-- Whether a character can be in a key. -/
def isKeyCharacter (c : Char) : Bool := c.isAlphanum || c == '_'

/-- The key in a line. -/
def keyAtLine (text : String) (line : ℕ) : Option String :=
  (lines text.toList)[line]?.bind fun target =>
    match (target.dropWhile isWhitespace).takeWhile isKeyCharacter with
    | [] => none
    | key => some (String.ofList key)

/-- Whether a line sets a key. -/
def setsKey (key : String) (line : List Char) : Bool :=
  match stripPrefix key.toList (line.dropWhile isWhitespace) with
  | some rest => ['='] <+: rest.dropWhile isWhitespace
  | none => false

/-- The number of the line that sets a key, zero if there is none. -/
def findKeyLine (text key : String) : ℕ :=
  ((lines text.toList).findIdx? (setsKey key)).getD 0

/-! ## Diagnostics -/

/-- A number. -/
def jsonNumber (n : ℕ) : JsonValue := .number (toString n)

/-- What is said about a line. -/
def diagnosticEntry (line : ℕ) (message : String) (severity : ℕ) : JsonValue :=
  .object
    [("range", .object
        [("start", .object [("line", jsonNumber line), ("character", jsonNumber 0)]),
          ("end", .object [("line", jsonNumber line), ("character", jsonNumber 256)])]),
      ("severity", jsonNumber severity), ("source", .string "fish-lsp"), ("message", .string message)]

/-- The notification of one thing that is said about a document. -/
def diagnostic (uri : String) (line : ℕ) (message : String) (severity : ℕ) : JsonValue :=
  .object
    [("jsonrpc", .string "2.0"), ("method", .string "textDocument/publishDiagnostics"),
      ("params", .object [("uri", .string uri), ("diagnostics", .array [diagnosticEntry line message severity])])]

/-- Whether a key is known. -/
def isKnown (key : String) : Bool :=
  key == "pipelines" || configKeys.any fun entry => entry.1 == key

/-- What is said about an unknown key. -/
def unknownMessage (key : String) : String :=
  "unknown configuration key `" ++ key ++ "`"

/-- The notifications for a text. -/
def validateDocument (parse : TomlParser) (uri text : String) : List JsonValue :=
  match parse text with
  | none => [diagnostic uri 0 "invalid TOML in fish.toml" 1]
  | some doc => (doc.keys.filter fun key => !isKnown key).map fun key =>
      diagnostic uri (findKeyLine text key) (unknownMessage key) 2

/-! ## Requests -/

/-- The value behind several keys. -/
def getPath (value : Option JsonValue) (path : List String) : Option JsonValue :=
  path.foldl (fun value key => value.bind (·.get key)) value

/-- The elements of an array. -/
def asArray : JsonValue → List JsonValue
  | .array elements => elements
  | _ => []

/-- The text in the parameters of a notification. -/
def documentText (params : Option JsonValue) : Option String :=
  (getPath params ["textDocument"]).bind fun textDocument =>
    match (textDocument.get "text").bind JsonValue.asStr with
    | some text => some text
    | none => (((getPath params ["contentChanges"]).bind fun changes => (asArray changes)[0]?).bind
        fun change => change.get "text").bind JsonValue.asStr

/-- The document of a request. -/
def requestUri (req : JsonValue) : String :=
  ((getPath (some req) ["params", "textDocument", "uri"]).bind JsonValue.asStr).getD ""

/-- A number that is not negative. -/
def asU64 : JsonValue → Option ℕ
  | .number literal => literal.toNat?.filter (· < 2 ^ 64)
  | _ => none

/-- An answer to a request. -/
def response (id : Option JsonValue) (result : JsonValue) : JsonValue :=
  .object [("jsonrpc", .string "2.0"), ("id", id.getD .null), ("result", result)]

/-- What the server can do. -/
def initializeResult : JsonValue :=
  .object
    [("capabilities", .object
        [("textDocumentSync", jsonNumber 1),
          ("completionProvider", .object
            [("resolveProvider", .bool false),
              ("triggerCharacters", .array [.string "[", .string "=", .string ".", .string "\""])]),
          ("hoverProvider", .bool true)]),
      ("serverInfo", .object [("name", .string "fish-lsp"), ("version", .string "0.3.0")])]

/-- What is inserted for a key. -/
def insertText (key ty : String) : String :=
  if ty = "boolean" then key ++ " = false"
  else if ty = "integer" then key ++ " = 0"
  else if ty = "array" then key ++ " = []"
  else key ++ " = \"\""

/-- The item of a key in a completion. -/
def completionItem (entry : String × String × String) : JsonValue :=
  .object
    [("label", .string entry.1), ("kind", jsonNumber 10), ("detail", .string entry.2.1), ("documentation", .string entry.2.2),
      ("insertText", .string (insertText entry.1 entry.2.1))]

/-- The texts of the documents. -/
abbrev Documents := AList fun _ : String => String

/-- What is shown at a position of a document. -/
def hoverText (req : JsonValue) (documents : Documents) : String :=
  let line := ((getPath (some req) ["params", "position", "line"]).bind asU64).getD 0
  match (documents.lookup (requestUri req)).bind fun text => keyAtLine text line with
  | some key => getHoverDocumentation key
  | none =>
    "### [fish.toml] Configuration\nFlat `key = value` manifest for the Fish build orchestration system."

/-- Handle a request: what is sent, and the documents after it. -/
def handleRequest (parse : TomlParser) (method : String) (req : JsonValue) (id : Option JsonValue) (documents : Documents) :
    List JsonValue × Documents :=
  if method = "initialize" then ([response id initializeResult], documents)
  else if method = "shutdown" then ([response id .null], documents)
  else if method = "textDocument/hover" then
    ([response id (.object [("contents", .object
      [("kind", .string "markdown"), ("value", .string (hoverText req documents))])])], documents)
  else if method = "textDocument/completion" then
    ([response id (.array (configKeys.map completionItem))], documents)
  else if method = "textDocument/didOpen" ∨ method = "textDocument/didChange" ∨ method = "textDocument/didSave" then
    match documentText (req.get "params") with
    | some text => (validateDocument parse (requestUri req) text, documents.insert (requestUri req) text)
    | none => ([], documents)
  else ([response id .null], documents)

/-- The method of a message. -/
def messageMethod (message : JsonValue) : String :=
  ((message.get "method").bind JsonValue.asStr).getD ""

/-- The server with its documents, and what it has sent. -/
structure Server where
  documents : Documents
  sent : List JsonValue

/-- The server at its start. -/
def Server.new : Server := ⟨∅, []⟩

/-- Read messages until the one to exit. -/
def runLsp (parse : TomlParser) : List JsonValue → Server → Server
  | [], server => server
  | message :: messages, server =>
    if messageMethod message = "exit" then server
    else
      let (replies, documents) := handleRequest parse (messageMethod message) message (message.get "id") server.documents
      runLsp parse messages ⟨documents, server.sent ++ replies⟩

end Forge.Cli.Lsp
