import Forge.Common.Files
import Forge.Common.PathText
import Forge.Common.Utf8

/-!
# Fingerprints of C and C++ sources

What is hashed for a source is the version of the compiler, the flags, the source, and its
headers: those that its dependency file lists, or else those that are found by following
its include lines. The contents of the files follow each other without their lengths or
their paths. The hash is a parameter.
-/

namespace Forge.Backend.Cc

open Forge.Common

/-- What there is at a path: a file, or something that cannot be read as one. -/
inductive Entry where
  | file (bytes : Bytes)
  | unreadable
deriving DecidableEq, Repr

/-- What there is at the paths of a file system. -/
abbrev FileSystem := AList fun _ : List Component => Entry

/-- Whether there is something at a path. -/
def pathExists (files : FileSystem) (path : String) : Bool :=
  (files.lookup (components path)).isSome

/-- How a fingerprint fails: a file cannot be read, or the program panics. -/
inductive FingerprintError where
  | io
  | panic
deriving DecidableEq, Repr

/-- Hash a file. -/
def hashFileInto (files : FileSystem) (path : String) : Except FingerprintError Bytes :=
  match files.lookup (components path) with
  | some (.file bytes) => .ok bytes
  | _ => .error .io

/-! ## Dependency files -/

/-- The paths in the dependencies of a line. A backslash takes the next character into a path. -/
def parseDeps : List Char → List Char → List String
  | [], token => if token = [] then [] else [String.ofList token]
  | ['\\'], token => if token = [] then [] else [String.ofList token]
  | '\\' :: next :: chars, token => parseDeps chars (token ++ [next])
  | c :: chars, token =>
    if isWhitespace c then
      if token = [] then parseDeps chars [] else String.ofList token :: parseDeps chars []
    else parseDeps chars (token ++ [c])

/-- What was read of a dependency file: the line so far, whether there was a target, and the
dependencies. -/
structure DepfileState where
  logical : List Char
  sawTarget : Bool
  deps : List String

/-- Read a line of a dependency file. A backslash at its end continues it. -/
def DepfileState.line (s : DepfileState) (raw : List Char) : DepfileState :=
  let line := trimEnd raw
  if line = [] then s
  else
    let continued := line.getLast? == some '\\'
    let piece := if continued then line.dropLast else line
    let logical := if trim piece = [] then s.logical else s.logical ++ piece ++ [' ']
    if continued then { s with logical := logical }
    else
      let (target, depsPart) := (splitOnce ':' logical).getD ([], logical)
      ⟨[], s.sawTarget || !(trim target).isEmpty, s.deps ++ parseDeps depsPart []⟩

/-- The dependencies that a text lists, if it names a target. -/
def parseDepfile (content : String) : Option (List String) :=
  let s := (lines content.toList).foldl DepfileState.line ⟨[], false, []⟩
  if s.sawTarget then some s.deps else none

/-- The dependencies that a dependency file lists, if it can be read. -/
def readDepfile (files : FileSystem) (path : String) : Option (List String) :=
  match files.lookup (components path) with
  | some (.file bytes) => (fromUtf8 bytes).bind parseDepfile
  | _ => none

/-- Lines can be continued, and paths can have spaces in them. -/
example : parseDepfile "util.o: src/util.c include/my\\ header.h \\\n  include/a.h include/b.h\n" =
    some ["src/util.c", "include/my header.h", "include/a.h", "include/b.h"] := by decide

/-- There is nothing in a blank file. -/
example : parseDepfile "  \n" = none := by decide

/-! ## Include lines -/

/-- The header that an include line names. A quote on its own is cut at both ends, which panics. -/
def extractHeaderName (line : List Char) : Except FingerprintError (Option String) :=
  match stripPrefix "#include".toList line with
  | none => .ok none
  | some rest =>
    let rest := trim rest
    if (rest.head? == some '"' && rest.getLast? == some '"') || (rest.head? == some '<' && rest.getLast? == some '>') then
      if rest.length < 2 then .error .panic else .ok (some (String.ofList (rest.drop 1).dropLast))
    else .ok none

/-- Find a header next to the file that includes it, or else in the directories of headers. -/
def resolveHeader (files : FileSystem) (headerName : String) (sourceDir : Option String) (includes : List String) :
    Option String :=
  ((sourceDir.toList ++ includes).map (joinPath · headerName)).find? (pathExists files)

/-- The text of a file, with replacements for what is no text. -/
def textLossy (content : Bytes) : String :=
  (fromUtf8 (toStringLossy content)).getD ""

/-- A line that is still to be looked at, with the directory of its file. -/
structure PendingLine where
  sourceDir : Option String
  line : List Char

/-- The lines of a file. -/
def pendingLines (content : Bytes) (sourceDir : Option String) : List PendingLine :=
  (lines (textLossy content).toList).map fun line => ⟨sourceDir, line⟩

/-- The paths of a file system that were not visited. -/
def unvisited (files : FileSystem) (visited : List (List Component)) : List (List Component) :=
  files.keys.filter fun path => !visited.contains path

/-- A visit leaves fewer paths. -/
theorem unvisited_lt {files : FileSystem} {visited : List (List Component)} {path : List Component} {entry : Entry}
    (hentry : files.lookup path = some entry) (hnew : path ∉ visited) :
    (unvisited files (path :: visited)).length < (unvisited files visited).length := by
  have hkey : path ∈ files.keys := by
    apply AList.mem_keys.mp
    apply AList.lookup_isSome.mp
    rw [hentry]
    rfl
  have hsplit : unvisited files (path :: visited) = (unvisited files visited).filter fun other => other != path := by
    unfold unvisited
    rw [List.filter_filter]
    refine List.filter_congr fun other _ => ?_
    rw [List.contains_cons, Bool.not_or]
    rfl
  have hmem : path ∈ unvisited files visited :=
    List.mem_filter.mpr ⟨hkey, by simpa using hnew⟩
  rw [hsplit]
  exact List.length_filter_lt_length_iff_exists.mpr ⟨path, hmem, by simp⟩

/-- Hash the headers that lines include, each once and before the lines behind it. -/
def scanAndHashHeaders (files : FileSystem) (includes : List String) :
    List PendingLine → List (List Component) → Except FingerprintError Bytes
  | [], _ => .ok []
  | ⟨sourceDir, line⟩ :: pending, visited =>
    match extractHeaderName (trim line) with
    | .error e => .error e
    | .ok none => scanAndHashHeaders files includes pending visited
    | .ok (some headerName) =>
      match resolveHeader files headerName sourceDir includes with
      | none => scanAndHashHeaders files includes pending visited
      | some path =>
        if _ : components path ∈ visited then scanAndHashHeaders files includes pending visited
        else
          match _ : files.lookup (components path) with
          | none => scanAndHashHeaders files includes pending visited
          | some .unreadable => .error .io
          | some (.file content) =>
            (scanAndHashHeaders files includes (pendingLines content (parentText path) ++ pending)
              (components path :: visited)).map (content ++ ·)
termination_by pending visited => ((unvisited files visited).length, pending.length)
decreasing_by
  · exact Prod.Lex.right _ (Nat.lt_succ_self _)
  · exact Prod.Lex.right _ (Nat.lt_succ_self _)
  · exact Prod.Lex.right _ (Nat.lt_succ_self _)
  · exact Prod.Lex.right _ (Nat.lt_succ_self _)
  · exact Prod.Lex.left _ _ (unvisited_lt ‹_› ‹_›)

/-! ## Fingerprint -/

/-- What is hashed in front of the files. -/
def commandText (compilerVersion : String) (flags : List String) : Bytes :=
  utf8Bytes compilerVersion ++ utf8Bytes "\nflags:\n" ++ flags.flatMap fun flag => utf8Bytes flag ++ utf8Bytes "\n"

/-- The path of a dependency. A relative one is taken to be next to the source. -/
def dependencyPath (source dep : String) : String :=
  if isAbsolute dep then dep else joinPath ((parentText source).getD ".") dep

/-- What is hashed for a dependency. The source is left out, and so is what cannot be read. -/
def dependencyText (files : FileSystem) (source dep : String) : Bytes :=
  let dep := dependencyPath source dep
  if components dep = components source then []
  else
    match files.lookup (components dep) with
    | some (.file bytes) => bytes
    | _ => []

/-- What is hashed for a source. -/
def sourceText (files : FileSystem) (source : String) (includes flags : List String) (compilerVersion : String)
    (depfile : Option String) : Except FingerprintError Bytes :=
  let command := commandText compilerVersion flags
  if pathExists files source then
    match hashFileInto files source with
    | .error e => .error e
    | .ok content =>
      match depfile.bind (readDepfile files) with
      | some deps => .ok (command ++ content ++ deps.flatMap (dependencyText files source))
      | none =>
        (scanAndHashHeaders files includes (pendingLines content (parentText source)) []).map
          (command ++ content ++ ·)
  else .ok command

/-- The fingerprint of a source. -/
def computeSourceFingerprint (hash : Bytes → String) (files : FileSystem) (source : String)
    (includes flags : List String) (compilerVersion : String) (depfile : Option String) :
    Except FingerprintError String :=
  (sourceText files source includes flags compilerVersion depfile).map hash

end Forge.Backend.Cc
