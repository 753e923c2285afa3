import Mathlib.Data.List.AList
import Mathlib.Algebra.Group.Nat.Defs
import Mathlib.Data.List.Infix

/-!
# The virtual file system of a worker

Files live in a tree of named nodes. Reads are served from a side cache that is keyed by
the path as it was given and bounded by a byte budget; writes go to the tree. A path is the
list of its components, and a component is an operating-system string that need not be
text: the tree is walked along the components that are, and the others are skipped.
-/

namespace Forge.Worker

/-- A component of a path: text, or bytes that are no text. -/
inductive OsStr where
  | text (s : String)
  | bytes (raw : List UInt8)
  deriving DecidableEq, Repr

/-- A path by its components. -/
abbrev Path := List OsStr

/-- The contents of a file. -/
abbrev Content := List UInt8

/-- The text of a component, if it is text. -/
def OsStr.toStr : OsStr → Option String
  | .text s => some s
  | .bytes _ => none

/-- The place in the tree a path leads to. -/
def location (path : Path) : List String := path.filterMap OsStr.toStr

/-- What is known about a file besides its contents. -/
structure FileMetadata where
  size : ℕ
  modified : ℕ
  isExecutable : Bool
  deriving DecidableEq, Repr

/-- A node of the tree. -/
inductive VfsNode where
  | file (content : Content) (metadata : FileMetadata)
  | directory (children : List (Σ _ : String, VfsNode)) (metadata : FileMetadata)

/-- The errors of the file system. -/
inductive VfsError where
  | notFound (path : String)
  | invalidPath (message : String)
  | ioError (message : String)
  deriving DecidableEq, Repr

/-- A directory without entries. -/
def emptyDirectory : VfsNode := .directory [] ⟨0, 0, false⟩

/-- The read cache with its byte count. -/
structure FileCache where
  entries : AList fun _ : Path => Content
  totalBytes : ℕ

/-- The file system: the tree, the read cache and the budget of the cache. -/
structure VirtualFileSystem where
  root : VfsNode
  cache : FileCache
  maxCacheBytes : ℕ

/-- Walk down the tree to the contents of a file. -/
def traverseNode : VfsNode → List String → Except VfsError Content
  | .file content _, [] => .ok content
  | .file _ _, _ :: _ => .error (.invalidPath "Path too long for file")
  | .directory _ _, [] => .error (.invalidPath "Path too short for directory")
  | .directory children _, name :: rest =>
    match children.dlookup name with
    | none => .error (.notFound name)
    | some child => traverseNode child rest

/-- Walk down the tree, creating directories on the way, and put a file at its end. -/
def traverseAndWrite (content : Content) (metadata : FileMetadata) :
    VfsNode → List String → Except VfsError Unit × VfsNode
  | .file _ _, [] => (.ok (), .file content metadata)
  | .file old oldMetadata, _ :: _ =>
    (.error (.invalidPath "Cannot traverse through file"), .file old oldMetadata)
  | .directory children dirMetadata, [] =>
    (.error (.invalidPath "Path too short"), .directory children dirMetadata)
  | .directory children dirMetadata, [name] =>
    (.ok (), .directory (children.kinsert name (.file content metadata)) dirMetadata)
  | .directory children dirMetadata, name :: next :: rest =>
    let child := (children.dlookup name).getD emptyDirectory
    let (result, child) := traverseAndWrite content metadata child (next :: rest)
    (result, .directory (children.kinsert name child) dirMetadata)

namespace VirtualFileSystem

/-- An empty file system. -/
def new (maxCacheBytes : ℕ) : VirtualFileSystem := ⟨emptyDirectory, ⟨∅, 0⟩, maxCacheBytes⟩

/-- Read from the tree. -/
def readFromNode (node : VfsNode) (path : Path) : Except VfsError Content :=
  match location path with
  | [] => .error (.invalidPath "Empty path")
  | components => traverseNode node components

/-- Write to the tree. -/
def writeToNode (node : VfsNode) (path : Path) (content : Content) (metadata : FileMetadata) :
    Except VfsError Unit × VfsNode :=
  match location path with
  | [] => (.error (.invalidPath "Empty path"), node)
  | components => traverseAndWrite content metadata node components

/-- Read a file through the cache. A miss fills the cache as far as the budget allows. -/
def readFile (vfs : VirtualFileSystem) (path : Path) : Except VfsError Content × VirtualFileSystem :=
  match vfs.cache.entries.lookup path with
  | some cached => (.ok cached, vfs)
  | none =>
    match readFromNode vfs.root path with
    | .error e => (.error e, vfs)
    | .ok content =>
      if min (vfs.cache.totalBytes + content.length) (2 ^ 64 - 1) ≤ vfs.maxCacheBytes then
        (.ok content, { vfs with
          cache :=
            { entries := vfs.cache.entries.insert path content
              totalBytes := (vfs.cache.totalBytes + content.length) % 2 ^ 64 } })
      else (.ok content, vfs)

/-- Write a file. -/
def writeFile (vfs : VirtualFileSystem) (path : Path) (content : Content)
    (metadata : FileMetadata) : Except VfsError Unit × VirtualFileSystem :=
  let (result, root) := writeToNode vfs.root path content metadata
  (result, { vfs with root := root })

/-- Forget all cached reads. -/
def clearCache (vfs : VirtualFileSystem) : VirtualFileSystem :=
  { vfs with cache := ⟨∅, 0⟩ }

end VirtualFileSystem

/-- The calls of a client. -/
inductive VfsCall where
  | writeFile (path : Path) (content : Content) (metadata : FileMetadata)
  | readFile (path : Path)
  | clearCache

/-- The file system after one call. -/
def VirtualFileSystem.call (vfs : VirtualFileSystem) : VfsCall → VirtualFileSystem
  | .writeFile path content metadata => (vfs.writeFile path content metadata).2
  | .readFile path => (vfs.readFile path).2
  | .clearCache => vfs.clearCache

/-- The file system after a sequence of calls. -/
def VirtualFileSystem.after (maxCacheBytes : ℕ) (calls : List VfsCall) : VirtualFileSystem :=
  calls.foldl call (new maxCacheBytes)

/-!
## The files of the tree

The tree of the file system, looked at from outside: which files there are, and what a write makes of
them. A write that succeeds puts its file in place of all that was there. A write that fails met a file on
its way, and every directory up to that was there before, so that it changes nothing.
-/

/-- Walk down the tree to what is known about a node, and whether it is a file. -/
def traverseMetadata : VfsNode → List String → Except VfsError (Bool × FileMetadata)
  | .file _ metadata, [] => .ok (true, metadata)
  | .file _ _, _ :: _ => .error (.invalidPath "Path too long for file")
  | .directory _ metadata, [] => .ok (false, metadata)
  | .directory children _, name :: rest =>
    match children.dlookup name with
    | none => .error (.notFound name)
    | some child => traverseMetadata child rest

/-- A node without what is below it. -/
inductive VfsEntry where
  | file (content : Content) (metadata : FileMetadata)
  | directory (metadata : FileMetadata)
  deriving DecidableEq, Repr

/-- The node at a location. -/
def entryAt : VfsNode → List String → Option VfsEntry
  | .file content metadata, [] => some (.file content metadata)
  | .file _ _, _ :: _ => none
  | .directory _ metadata, [] => some (.directory metadata)
  | .directory children _, name :: rest =>
    match children.dlookup name with
    | none => none
    | some child => entryAt child rest

/-- The file at a location. -/
def VfsEntry.file? : VfsEntry → Option (Content × FileMetadata)
  | .file content metadata => some (content, metadata)
  | .directory _ => none

/-- The file at a location of the tree. -/
def fileEntryAt (node : VfsNode) (loc : List String) : Option (Content × FileMetadata) :=
  (entryAt node loc).bind VfsEntry.file?

/-- A path reads a file exactly when there is one at its location. -/
theorem traverseNode_ok_iff (node : VfsNode) (loc : List String) (content : Content) :
    traverseNode node loc = .ok content ↔ ∃ metadata, fileEntryAt node loc = some (content, metadata) := by
  induction loc generalizing node with
  | nil =>
    cases node with
    | file old metadata => simp [traverseNode, fileEntryAt, entryAt, VfsEntry.file?]
    | directory children metadata => simp [traverseNode, fileEntryAt, entryAt, VfsEntry.file?]
  | cons name rest ih =>
    cases node with
    | file old metadata => simp [traverseNode, fileEntryAt, entryAt]
    | directory children metadata =>
      rw [traverseNode, fileEntryAt, entryAt]
      cases children.dlookup name with
      | none => simp
      | some child => exact ih child

/-- What is known about a file is what its node says. -/
theorem traverseMetadata_of_file {node : VfsNode} {loc : List String} {content : Content} {metadata : FileMetadata}
    (hfile : fileEntryAt node loc = some (content, metadata)) : traverseMetadata node loc = .ok (true, metadata) := by
  induction loc generalizing node with
  | nil =>
    cases node with
    | file old oldMetadata =>
      cases hfile
      rfl
    | directory children dirMetadata => cases hfile
  | cons name rest ih =>
    cases node with
    | file old oldMetadata => cases hfile
    | directory children dirMetadata =>
      rw [fileEntryAt, entryAt] at hfile
      rw [traverseMetadata]
      cases hchild : children.dlookup name with
      | none => rw [hchild] at hfile; cases hfile
      | some child =>
        rw [hchild] at hfile
        exact ih hfile

/-- There is no file in an empty directory. -/
theorem fileEntryAt_emptyDirectory (loc : List String) : fileEntryAt emptyDirectory loc = none := by
  cases loc <;> rfl

/-- Below a directory the files are those of the child, and a missing child is like an empty directory. -/
theorem fileEntryAt_directory_cons (children : List (Σ _ : String, VfsNode)) (metadata : FileMetadata)
    (name : String) (rest : List String) :
    fileEntryAt (.directory children metadata) (name :: rest) =
      fileEntryAt ((children.dlookup name).getD emptyDirectory) rest := by
  rw [fileEntryAt, entryAt]
  cases children.dlookup name with
  | none =>
    rw [Option.getD_none, fileEntryAt_emptyDirectory]
    rfl
  | some child => rfl

/-- The nodes after replacing a child. -/
theorem entryAt_kinsert (children : List (Σ _ : String, VfsNode)) (metadata : FileMetadata) (name : String)
    (child : VfsNode) (other : String) (rest : List String) :
    entryAt (.directory (children.kinsert name child) metadata) (other :: rest) =
      if other = name then entryAt child rest else entryAt (.directory children metadata) (other :: rest) := by
  rw [entryAt, entryAt]
  by_cases hother : other = name
  · subst hother
    rw [List.dlookup_kinsert, if_pos rfl]
  · rw [List.dlookup_kinsert_ne hother, if_neg hother]

/-- The files after replacing a child. -/
theorem fileEntryAt_kinsert (children : List (Σ _ : String, VfsNode)) (metadata : FileMetadata) (name : String)
    (child : VfsNode) (other : String) (rest : List String) :
    fileEntryAt (.directory (children.kinsert name child) metadata) (other :: rest) =
      if other = name then fileEntryAt child rest
      else fileEntryAt (.directory children metadata) (other :: rest) := by
  rw [fileEntryAt, entryAt_kinsert]
  split <;> rfl

/-- A successful write puts its file at its location and clears what was below. -/
theorem traverseAndWrite_fileEntryAt (content : Content) (metadata : FileMetadata) {node : VfsNode}
    {loc : List String} (hok : (traverseAndWrite content metadata node loc).1 = .ok ()) (other : List String) :
    fileEntryAt (traverseAndWrite content metadata node loc).2 other =
      if other = loc then some (content, metadata) else if loc <+: other then none else fileEntryAt node other := by
  induction loc generalizing node other with
  | nil =>
    cases node with
    | file old oldMetadata => cases other <;> rfl
    | directory children dirMetadata => cases hok
  | cons name rest ih =>
    cases node with
    | file old oldMetadata => cases hok
    | directory children dirMetadata =>
      cases rest with
      | nil =>
        cases other with
        | nil => simp [traverseAndWrite, fileEntryAt, entryAt]
        | cons first other =>
          rw [traverseAndWrite, fileEntryAt_kinsert]
          by_cases hfirst : first = name
          · subst hfirst
            cases other with
            | nil => simp [fileEntryAt, entryAt, VfsEntry.file?]
            | cons second other => simp [fileEntryAt, entryAt, List.cons_prefix_cons]
          · simp [hfirst, List.cons_prefix_cons, Ne.symm hfirst]
      | cons next rest =>
        rw [traverseAndWrite] at hok ⊢
        simp only at hok ⊢
        cases other with
        | nil => simp [fileEntryAt, entryAt]
        | cons first other =>
          rw [fileEntryAt_kinsert]
          by_cases hfirst : first = name
          · subst hfirst
            rw [if_pos rfl, ih hok other, fileEntryAt_directory_cons]
            simp [List.cons_prefix_cons]
          · simp [hfirst, List.cons_prefix_cons, Ne.symm hfirst]

/-- There is room for everything in an empty directory. -/
theorem traverseAndWrite_emptyDirectory (content : Content) (metadata : FileMetadata) (name : String)
    (rest : List String) : (traverseAndWrite content metadata emptyDirectory (name :: rest)).1 = .ok () := by
  induction rest generalizing name with
  | nil => rfl
  | cons next rest ih => exact ih next

/-- A failed write leaves every node as it was. -/
theorem traverseAndWrite_entryAt (content : Content) (metadata : FileMetadata) {node : VfsNode} {loc : List String}
    (herror : (traverseAndWrite content metadata node loc).1 ≠ .ok ()) :
    entryAt (traverseAndWrite content metadata node loc).2 = entryAt node := by
  induction loc generalizing node with
  | nil =>
    cases node with
    | file old oldMetadata => exact absurd rfl herror
    | directory children dirMetadata => rfl
  | cons name rest ih =>
    cases node with
    | file old oldMetadata => rfl
    | directory children dirMetadata =>
      cases rest with
      | nil => exact absurd rfl herror
      | cons next rest =>
        rw [traverseAndWrite] at herror ⊢
        simp only at herror ⊢
        -- A missing child cannot have made the write fail.
        obtain ⟨child, hchild⟩ : ∃ child, children.dlookup name = some child := by
          cases hchild : children.dlookup name with
          | some child => exact ⟨child, rfl⟩
          | none =>
            rw [hchild] at herror
            exact absurd (traverseAndWrite_emptyDirectory content metadata next rest) herror
        rw [hchild, Option.getD_some] at herror ⊢
        funext other
        cases other with
        | nil => rfl
        | cons first other =>
          rw [entryAt_kinsert, ih herror]
          by_cases hfirst : first = name
          · subst hfirst
            rw [if_pos rfl, entryAt, hchild]
          · rw [if_neg hfirst]

end Forge.Worker
