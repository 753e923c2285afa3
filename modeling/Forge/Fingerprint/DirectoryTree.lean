import Mathlib.Data.List.Sort
import Mathlib.Data.List.Lex
import Forge.Common.Files
import Forge.Common.Text
import Forge.Common.Utf8

/-!
# Directories as they are hashed

A directory lists its entries in an order that the file system chooses. The walk sorts the
entries of a directory by their names, leaves out the directories that a filter excludes,
and feeds the files that it allows to a hasher: the path below the base, a colon, and the
content.
-/

namespace Forge.Fingerprint

open Forge.Common

/-- The name of a file, any bytes. -/
abbrev OsString := Bytes

/-- The components of a path. -/
abbrev Path := List OsString

mutual

/-- What a path leads to: a file, a directory, or neither. -/
inductive Tree where
  | file (content : Bytes)
  | other
  | dir (entries : Entries)

/-- The entries of a directory in the order in which it lists them. -/
inductive Entries where
  | nil
  | cons (name : OsString) (tree : Tree) (entries : Entries)

end

/-- The names of the entries. -/
def Entries.names : Entries → List OsString
  | .nil => []
  | .cons name _ entries => name :: entries.names

mutual

/-- No directory lists a name twice. -/
def Tree.Distinct : Tree → Prop
  | .file _ => True
  | .other => True
  | .dir entries => entries.names.Nodup ∧ entries.Distinct

/-- No directory below lists a name twice. -/
def Entries.Distinct : Entries → Prop
  | .nil => True
  | .cons _ tree entries => tree.Distinct ∧ entries.Distinct

end

/-- Whether a path leads to a directory. -/
def Tree.isDir : Tree → Bool
  | .dir _ => true
  | _ => false

mutual

/-- Where a path leads. Where there is nothing is neither a file nor a directory. -/
def Tree.descend : Tree → Path → Tree
  | tree, [] => tree
  | .dir entries, name :: path => entries.descend name path
  | _, _ => .other

/-- Where a path leads from an entry. -/
def Entries.descend : Entries → OsString → Path → Tree
  | .nil, _, _ => .other
  | .cons name tree entries, target, path =>
    if name = target then tree.descend path else entries.descend target path

end

/-- The content of a file, if the path leads to one. -/
def isFile (fs : Tree) (path : Path) : Option Bytes :=
  match fs.descend path with
  | .file content => some content
  | _ => none

/-- Which directories are left out, by the text of their names, and which files are hashed, by their
paths. -/
structure DirectoryFilter where
  isExcludedDir : Bytes → Bool
  isAllowedFile : Path → Bool

/-- Whether an entry is a directory that is left out. -/
def DirectoryFilter.skips (f : DirectoryFilter) (name : OsString) (tree : Tree) : Bool :=
  tree.isDir && f.isExcludedDir (toStringLossy name)

/-- The directories that no fingerprint looks into. -/
def defaultExcludedDirs : List String :=
  [".git", ".fish", "target", "build", "dist", "node_modules", "vendor", ".dart_tool", "__pycache__", ".venv", "venv",
    ".pytest_cache", ".mypy_cache", ".ruff_cache", "bin", "obj", ".gradle", ".m2", ".idea", ".vscode", ".next",
    ".turbo", "zig-cache", "zig-out"]

/-- Whether a text is among others. -/
def listed (texts : List String) (text : Bytes) : Bool :=
  texts.any fun t => utf8Bytes t == text

/-- The extension of the last component of a path. A point at the start of a name does not count. -/
def extension (path : Path) : Option Bytes :=
  match path.getLast? with
  | none => none
  | some name =>
    match rsplitOnce 46 name with
    | some (stem, extension) => if stem = [] ∨ name = [46, 46] then none else some extension
    | none => none

/-- The filter that allows files by their extensions, or all files when no extension is given. -/
def withExtensions (extensions excludedDirs : List String) : DirectoryFilter where
  isExcludedDir := fun name => listed excludedDirs name || listed defaultExcludedDirs name
  isAllowedFile := fun path =>
    extensions.isEmpty || match extension path with
      | none => false
      | some extension => listed extensions extension

/-- The filter of a Rust package. -/
def packageFilter : DirectoryFilter where
  isExcludedDir := listed defaultExcludedDirs
  isAllowedFile := fun _ => true

/-- Whether a name comes before another or is the same, by its bytes. -/
def NameLe (a b : OsString) : Prop := a.map UInt8.toNat ≤ b.map UInt8.toNat

/-- Names can be compared. -/
instance (a b : OsString) : Decidable (NameLe a b) :=
  inferInstanceAs (Decidable (a.map UInt8.toNat ≤ b.map UInt8.toNat))

/-- Sort by names. -/
def sortByName {α : Type*} (l : List (OsString × α)) : List (OsString × α) :=
  l.insertionSort fun a b => NameLe a.1 b.1

/-- A file that is hashed: its path below the base, and its content. -/
abbrev HashedFile := Path × Bytes

mutual

/-- The files below a path that are hashed, in the order of the walk. -/
def Tree.walk (f : DirectoryFilter) (base rel : Path) : Tree → List HashedFile
  | .file content => if f.isAllowedFile (base ++ rel) then [(rel, content)] else []
  | .other => []
  | .dir entries => (sortByName (entries.walk f base rel)).flatMap (·.2)

/-- The files below the entries of a directory that are hashed, by entry. -/
def Entries.walk (f : DirectoryFilter) (base rel : Path) : Entries → List (OsString × List HashedFile)
  | .nil => []
  | .cons name tree entries =>
    (name, if f.skips name tree then [] else tree.walk f base (rel ++ [name])) :: entries.walk f base rel

end

/-- The text of a path below the base. -/
def pathText (rel : Path) : Bytes :=
  (toStringLossy (List.intercalate [47] rel)).map fun byte => if byte = 92 then 47 else byte

/-- What is fed to the hasher for a file. -/
def fileText (file : HashedFile) : Bytes :=
  pathText file.1 ++ [58] ++ file.2

/-- What is fed to the hasher for files one after another. -/
def filesText (files : List HashedFile) : Bytes :=
  files.flatMap fileText

/-- The files that are hashed for a directory. What is no directory has none. -/
def hashedFiles (f : DirectoryFilter) (base : Path) (tree : Tree) : List HashedFile :=
  if tree.isDir then tree.walk f base [] else []

/-- What is fed to the hasher for a directory. -/
def hashDirectoryFiltered (f : DirectoryFilter) (base : Path) (tree : Tree) : Bytes :=
  filesText (hashedFiles f base tree)

/-! ## The files by their paths -/

mutual

/-- The content of the file at a path below, if the filter lets it be hashed. -/
def Tree.allowed (f : DirectoryFilter) (base rel : Path) : Tree → Path → Option Bytes
  | .file content, [] => if f.isAllowedFile (base ++ rel) then some content else none
  | .dir entries, name :: path => entries.allowed f base rel name path
  | _, _ => none

/-- The content of the file at a path below an entry, if the filter lets it be hashed. -/
def Entries.allowed (f : DirectoryFilter) (base rel : Path) : Entries → OsString → Path → Option Bytes
  | .nil, _, _ => none
  | .cons name tree entries, target, path =>
    if name = target then
      if f.skips name tree then none else tree.allowed f base (rel ++ [name]) path
    else entries.allowed f base rel target path

end

/-- The map from paths to the contents of the files that a filter lets be hashed. -/
def fileMap (f : DirectoryFilter) (base : Path) (tree : Tree) (path : Path) : Option Bytes :=
  if tree.isDir then tree.allowed f base [] path else none

end Forge.Fingerprint
