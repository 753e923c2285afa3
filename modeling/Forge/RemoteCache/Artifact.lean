import Forge.Fingerprint.DirectoryWalk

/-!
# Blobs of packed files

Files are packed into an archive under their paths below a root, and the archive is compressed.
Unpacking writes the files of an archive below another root, and makes the directories on the way. An
archive can come from anywhere, so an entry whose path is absolute or leads upwards is skipped. The
formats of the archive and of the compression are those of libraries.
-/

namespace Forge.Fingerprint

open Forge.Common

/-! ## Writing below a directory -/

/-- What is at a path. -/
inductive Kind where
  | file (content : Bytes)
  | other
  | dir
  deriving DecidableEq

/-- What a tree is at its root. -/
def Tree.kind : Tree → Kind
  | .file content => .file content
  | .other => .other
  | .dir _ => .dir

mutual

/-- What is at a path, if there is anything. -/
def Tree.look : Tree → Path → Option Kind
  | tree, [] => some tree.kind
  | .dir entries, name :: path => entries.look name path
  | _, _ => none

/-- What is at a path below an entry, if there is anything. -/
def Entries.look : Entries → OsString → Path → Option Kind
  | .nil, _, _ => none
  | .cons name tree entries, target, path =>
    if name = target then tree.look path else entries.look target path

end

/-- A new file, or a new directory when there is no content. -/
def newTree : Option Bytes → Tree
  | some content => .file content
  | none => .dir .nil

/-- A new file or directory with the directories that lead to it. -/
def freshTree (new : Option Bytes) : Path → Tree
  | [] => newTree new
  | name :: path => .dir (.cons name (freshTree new path) .nil)

mutual

/-- Make a file or a directory at a path, and the directories on the way. A file is overwritten, a
directory is not. -/
def Tree.make (new : Option Bytes) : Tree → Path → Option Tree
  | .dir entries, [] => if new = none then some (.dir entries) else none
  | _, [] => if new = none then none else some (newTree new)
  | .dir entries, name :: path => (entries.make new name path).map .dir
  | _, _ :: _ => none

/-- Make a file or a directory at a path below an entry. -/
def Entries.make (new : Option Bytes) : Entries → OsString → Path → Option Entries
  | .nil, name, path => some (.cons name (freshTree new path) .nil)
  | .cons name tree entries, target, path =>
    if name = target then (tree.make new path).map fun tree => .cons name tree entries
    else (entries.make new target path).map fun entries => .cons name tree entries

end

variable {new : Option Bytes}

/-- Nothing is in an empty directory. -/
@[simp] theorem look_empty (name : OsString) (path : Path) : (Tree.dir .nil).look (name :: path) = none := rfl

/-- What is in a directory is below the entry of its name. -/
@[simp] theorem look_dir_cons (name target : OsString) (tree : Tree) (entries : Entries) (path : Path) :
    (Tree.dir (.cons name tree entries)).look (target :: path) =
      if name = target then tree.look path else (Tree.dir entries).look (target :: path) := by
  rw [Tree.look, Entries.look, Tree.look]

/-- A tree is at its own root. -/
@[simp] theorem look_nil (tree : Tree) : tree.look [] = some tree.kind := by
  cases tree <;> rfl

/-- The content, if it is a file. -/
def fileContent : Option Kind → Option Bytes
  | some (.file content) => some content
  | _ => none

/-- The files of a tree are those that are there. -/
theorem isFile_eq_look (tree : Tree) (path : Path) : isFile tree path = fileContent (tree.look path) := by
  induction path generalizing tree with
  | nil => cases tree <;> rfl
  | cons name path ih =>
    cases tree with
    | file | other => rfl
    | dir entries =>
      induction entries using Entries.rec (motive_1 := fun _ => True) with
      | file | other | dir => trivial
      | nil => rfl
      | cons target tree entries _ ihentries =>
        rw [isFile_dir_cons, look_dir_cons]
        split
        · exact ih tree
        · exact ihentries

/-- What is made at a path. -/
def newKind : Option Bytes → Kind
  | some content => .file content
  | none => .dir

/-- What is new is what was made. -/
@[simp] theorem newTree_kind (new : Option Bytes) : (newTree new).kind = newKind new := by
  cases new <;> rfl

/-- What is there after something is made at a path: it, what was there before, and new directories on
the way. -/
def lookMade (new : Option Bytes) (path other : Path) (before : Option Kind) : Option Kind :=
  if other = path then some (newKind new) else if other <+: path then some (before.getD .dir) else before

/-- Below the same name. -/
@[simp] theorem lookMade_cons (name : OsString) (path other : Path) (before : Option Kind) :
    lookMade new (name :: path) (name :: other) before = lookMade new path other before := by
  simp [lookMade, List.cons_prefix_cons]

/-- Below another name nothing is made. -/
theorem lookMade_cons_ne {name name' : OsString} (h : name' ≠ name) (path other : Path) (before : Option Kind) :
    lookMade new (name :: path) (name' :: other) before = before := by
  simp [lookMade, List.cons_prefix_cons, h]

/-- On the way there is what was there, or a new directory. -/
@[simp] theorem lookMade_cons_nil (name : OsString) (path : Path) (before : Option Kind) :
    lookMade new (name :: path) [] before = some (before.getD .dir) := by
  simp [lookMade]

/-- What is in a new tree. -/
theorem look_freshTree (path other : Path) : (freshTree new path).look other = lookMade new path other none := by
  induction path generalizing other with
  | nil =>
    cases other with
    | nil => simp [freshTree, lookMade]
    | cons name other => cases new <;> simp [freshTree, newTree, lookMade, Tree.look]
  | cons name path ih =>
    cases other with
    | nil => rw [lookMade_cons_nil, freshTree, look_nil, Tree.kind, Option.getD_none]
    | cons name' other =>
      rw [freshTree, look_dir_cons]
      split
      · rename_i hname
        rw [← hname, lookMade_cons, ih]
      · rename_i hname
        rw [lookMade_cons_ne (Ne.symm hname), look_empty]

/-- At its own root a tree becomes what is made there, and what is below stays. -/
theorem kind_of_make {tree tree' : Tree} (h : tree.make new [] = some tree') :
    tree'.kind = newKind new ∧ ∀ name path, tree'.look (name :: path) = tree.look (name :: path) := by
  cases tree with
  | dir entries =>
    obtain ⟨hnew, htree⟩ := Option.ite_none_right_eq_some.mp h
    obtain rfl := Option.some.inj htree
    exact ⟨by rw [hnew]; rfl, fun _ _ => rfl⟩
  | file | other =>
    obtain ⟨hnew, htree⟩ := Option.ite_none_left_eq_some.mp h
    obtain rfl := Option.some.inj htree
    obtain ⟨content, rfl⟩ := Option.ne_none_iff_exists'.mp hnew
    exact ⟨rfl, fun _ _ => rfl⟩

/-- What is there after something was made. -/
theorem look_of_make {tree tree' : Tree} {path : Path} (h : tree.make new path = some tree') (other : Path) :
    tree'.look other = lookMade new path other (tree.look other) := by
  induction path generalizing tree tree' other with
  | nil =>
    obtain ⟨hkind, hbelow⟩ := kind_of_make h
    cases other with
    | nil => rw [look_nil, hkind, lookMade, if_pos rfl]
    | cons name other => rw [hbelow]; simp [lookMade]
  | cons name path ih =>
    cases tree with
    | file | other => cases h
    | dir entries =>
      obtain ⟨entries', hentries, rfl⟩ := Option.map_eq_some_iff.mp h
      clear h
      cases other with
      | nil => rw [lookMade_cons_nil, look_nil, look_nil, Option.getD_some, Tree.kind, Tree.kind]
      | cons name' other =>
        induction entries using Entries.rec (motive_1 := fun _ => True) generalizing entries' with
        | file | other | dir => trivial
        | nil =>
          obtain rfl := Option.some.inj hentries
          exact look_freshTree (name :: path) (name' :: other)
        | cons target tree entries _ ihentries =>
          rw [Entries.make] at hentries
          split at hentries
          · rename_i hname
            obtain ⟨tree', htree, rfl⟩ := Option.map_eq_some_iff.mp hentries
            rw [look_dir_cons, look_dir_cons]
            split
            · rename_i hname'
              rw [← hname', hname, lookMade_cons]
              exact ih htree other
            · rename_i hname'
              rw [lookMade_cons_ne fun heq => hname' (hname.trans heq.symm)]
          · rename_i hname
            obtain ⟨rest, hrest, rfl⟩ := Option.map_eq_some_iff.mp hentries
            rw [look_dir_cons, look_dir_cons]
            split
            · rename_i hname'
              rw [lookMade_cons_ne fun heq => hname (hname'.trans heq)]
            · exact ihentries rest hrest

/-- Where a directory was made was no file. -/
theorem isFile_of_make_dir {tree tree' : Tree} {path : Path} (h : tree.make none path = some tree') :
    isFile tree path = none := by
  induction path generalizing tree tree' with
  | nil =>
    cases tree with
    | file => cases h
    | other | dir => rfl
  | cons name path ih =>
    cases tree with
    | file | other => rfl
    | dir entries =>
      obtain ⟨entries', hentries, -⟩ := Option.map_eq_some_iff.mp h
      clear h
      induction entries using Entries.rec (motive_1 := fun _ => True) generalizing entries' with
      | file | other | dir => trivial
      | nil => rfl
      | cons target tree entries _ ihentries =>
        rw [Entries.make] at hentries
        rw [isFile_dir_cons]
        split at hentries
        · rename_i hname
          obtain ⟨tree', htree, -⟩ := Option.map_eq_some_iff.mp hentries
          rw [if_pos hname]
          exact ih htree
        · rename_i hname
          obtain ⟨rest, hrest, -⟩ := Option.map_eq_some_iff.mp hentries
          rw [if_neg hname]
          exact ihentries rest hrest

/-- Nothing is in the way of what is to be made at a path: on the way are only directories, and a
directory is no file. -/
structure Tree.Free (tree : Tree) (isDir : Bool) (path : Path) : Prop where
  way : ∀ other, other <+: path → other ≠ path → ∀ kind, tree.look other = some kind → kind = .dir
  target : ∀ kind, tree.look path = some kind → decide (kind = .dir) = isDir

/-- Where nothing is in the way it can be made. -/
theorem Tree.Free.make {tree : Tree} {path : Path} (h : tree.Free new.isNone path) :
    ∃ tree', tree.make new path = some tree' := by
  induction path generalizing tree with
  | nil =>
    have htarget := h.target tree.kind (look_nil tree)
    cases tree with
    | dir entries => exact ⟨_, if_pos (Option.isNone_iff_eq_none.mp htarget.symm)⟩
    | file | other => exact ⟨_, if_neg fun hnew => Bool.false_ne_true (htarget.trans (Option.isNone_iff_eq_none.mpr hnew))⟩
  | cons name path ih =>
    have hkind := h.way [] List.nil_prefix (List.cons_ne_nil name path).symm tree.kind (look_nil tree)
    cases tree with
    | file | other => cases hkind
    | dir entries =>
      suffices hentries : ∃ entries', entries.make new name path = some entries' by
        obtain ⟨entries', hentries⟩ := hentries
        exact ⟨.dir entries', by rw [Tree.make, hentries, Option.map_some]⟩
      induction entries using Entries.rec (motive_1 := fun _ => True) with
      | file | other | dir => trivial
      | nil => exact ⟨_, rfl⟩
      | cons target tree entries _ ihentries =>
        rw [Entries.make]
        split
        · rename_i hname
          have hfree : tree.Free new.isNone path := by
            constructor
            · intro other hpre hne kind hlook
              apply h.way (name :: other) (List.cons_prefix_cons.mpr ⟨rfl, hpre⟩) (by simpa using hne)
              rw [look_dir_cons, if_pos hname, hlook]
            · intro kind hlook
              apply h.target
              rw [look_dir_cons, if_pos hname, hlook]
          obtain ⟨tree', htree⟩ := ih hfree
          exact ⟨_, by rw [htree, Option.map_some]⟩
        · rename_i hname
          have hlook : ∀ other, (Tree.dir (.cons target tree entries)).look (name :: other) =
              (Tree.dir entries).look (name :: other) := fun other => by rw [look_dir_cons, if_neg hname]
          have hfree : (Tree.dir entries).Free new.isNone (name :: path) := by
            constructor
            · intro other hpre hne kind hother
              cases other with
              | nil => exact (Option.some.inj hother).symm
              | cons name' other =>
                obtain ⟨rfl, -⟩ := List.cons_prefix_cons.mp hpre
                exact h.way (name' :: other) hpre hne kind ((hlook other).trans hother)
            · exact fun kind hother => h.target kind ((hlook path).trans hother)
          obtain ⟨rest, hrest⟩ := ihentries hfree rfl
          exact ⟨_, by rw [hrest, Option.map_some]⟩

/-- What was made is not in the way of another path when neither leads through the other. -/
theorem Tree.Free.of_make {isDir : Bool} {tree tree' : Tree} {path other : Path} (h : tree.Free isDir other)
    (hmake : tree.make new path = some tree') (hsame : other = path → new.isNone = isDir)
    (hbelow : path <+: other → path ≠ other → new.isNone) (habove : other <+: path → other ≠ path → isDir) :
    tree'.Free isDir other := by
  constructor
  · intro way hpre hne kind hlook
    rw [look_of_make hmake, lookMade] at hlook
    split at hlook
    · rename_i hway
      have hnew := hbelow (hway ▸ hpre) (hway ▸ hne)
      rw [Option.isNone_iff_eq_none.mp hnew] at hlook
      exact (Option.some.inj hlook).symm
    · split at hlook
      · cases hbefore : tree.look way with
        | none => rw [← Option.some.inj hlook, hbefore, Option.getD_none]
        | some before => rw [← Option.some.inj hlook, hbefore, Option.getD_some, h.way way hpre hne before hbefore]
      · exact h.way way hpre hne kind hlook
  · intro kind hlook
    rw [look_of_make hmake, lookMade] at hlook
    split at hlook
    · rename_i hother
      rw [← hsame hother, ← Option.some.inj hlook]
      cases new <;> rfl
    · rename_i hne
      split at hlook
      · rename_i hpre
        cases hbefore : tree.look other with
        | none => rw [habove hpre hne, ← Option.some.inj hlook, hbefore]; rfl
        | some before => exact h.target kind (by rw [hbefore, ← hlook, hbefore, Option.getD_some])
      · exact h.target kind hlook

/-- The files after something was made. -/
theorem isFile_of_make {tree tree' : Tree} {path : Path} (h : tree.make new path = some tree') (other : Path) :
    isFile tree' other = if other = path then new else isFile tree other := by
  rw [isFile_eq_look, look_of_make h, lookMade, isFile_eq_look tree]
  split
  · cases new <;> rfl
  · split
    · cases tree.look other with
      | none => rfl
      | some before => rfl
    · rfl

/-- Where a directory can be made is no file. -/
theorem Tree.Free.isFile_eq_none {tree : Tree} {path : Path} (h : tree.Free true path) : isFile tree path = none := by
  rw [isFile_eq_look]
  cases hlook : tree.look path with
  | none => rfl
  | some kind =>
    rw [of_decide_eq_true (h.target kind hlook)]
    rfl

/-- Only an entry that is listed has files. -/
theorem mem_names_of_isFile {entries : Entries} {name : OsString} {path : Path}
    (h : (isFile (.dir entries) (name :: path)).isSome) : name ∈ entries.names := by
  induction entries using Entries.rec (motive_1 := fun _ => True) with
  | file | other | dir => trivial
  | nil => cases h
  | cons target tree entries _ ih =>
    rw [isFile_dir_cons] at h
    split at h
    · rename_i hname
      exact hname ▸ List.mem_cons_self
    · exact List.mem_cons_of_mem target (ih h)

/-- A file leads nowhere. -/
theorem eq_of_isFile_below {fs : Tree} {path other : Path} (h : (isFile fs path).isSome) (hother : (isFile fs other).isSome)
    (hpre : path <+: other) : path = other := by
  obtain ⟨more, rfl⟩ := hpre
  cases more with
  | nil => rw [List.append_nil]
  | cons name more =>
    rw [isFile_append] at hother
    unfold isFile at h
    split at h
    · rename_i hfile
      rw [hfile] at hother
      cases hother
    · cases h

end Forge.Fingerprint

namespace Forge.RemoteCache

open Forge.Common Forge.Fingerprint

/-! ## Archives -/

/-- A component of a path in an archive. -/
inductive PathComponent where
  | normal (name : OsString)
  | parentDir
  | curDir
  deriving DecidableEq

/-- A file in an archive. -/
structure ArchiveEntry where
  isAbsolute : Bool
  components : List PathComponent
  content : Bytes
  deriving DecidableEq

/-- The path of an entry leads down from where it starts. -/
structure ArchiveEntry.Plain (entry : ArchiveEntry) : Prop where
  relative : entry.isAbsolute = false
  nonempty : entry.components ≠ []
  normal : ∀ component ∈ entry.components, ∃ name, component = .normal name

/-- The formats of archives and of compressed blobs. Entries whose paths are plain read back, and so
does what was compressed. -/
structure ArchiveFormat (Blob : Type) where
  build : List ArchiveEntry → Except String Blob
  entries : Blob → Except String (List (Except String ArchiveEntry))
  compress : Blob → Except String Blob
  decompress : Blob → Except String Blob
  build_plain : ∀ archive, (∀ entry ∈ archive, ArchiveEntry.Plain entry) →
    ∃ bytes, build archive = .ok bytes ∧ entries bytes = .ok (archive.map .ok)
  compress_reads : ∀ bytes, ∃ blob, compress bytes = .ok blob ∧ decompress blob = .ok bytes

variable {Blob : Type}

/-! ## Packing -/

mutual

/-- The files that a path leads to, but for entries with such names, in the order in which they are listed. -/
def Tree.collect (excludes : List String) (path : Path) : Tree → List Path
  | .file _ => [path]
  | .other => []
  | .dir entries => Entries.collect excludes path entries

/-- The files below a directory, but for entries with such names. -/
def Entries.collect (excludes : List String) (dir : Path) : Entries → List Path
  | .nil => []
  | .cons name tree entries =>
    (if listed excludes name then [] else Tree.collect excludes (dir ++ [name]) tree) ++
      Entries.collect excludes dir entries

end

/-- The files below a directory but for entries with such names. -/
def collectTree (excludes : List String) (dir : Path) (entries : Entries) : List Path :=
  Entries.collect excludes dir entries

/-- The files that a path leads to. -/
def collectFiles (full : Path) (tree : Tree) : List Path := Tree.collect [] full tree

/-- A path below a root, if it is below. -/
def stripPrefix (root full : Path) : Option Path :=
  if root <+: full then some (full.drop root.length) else none

/-- The entry of a file. A file that is not below the root keeps its own path. -/
def entryOf (fs : Tree) (root full : Path) : Except String ArchiveEntry :=
  match isFile fs full with
  | none => .error "No such file or directory (os error 2)"
  | some content =>
    match stripPrefix root full with
    | some relative => .ok ⟨false, relative.map .normal, content⟩
    | none => .ok ⟨true, full.map .normal, content⟩

/-- Pack files. -/
def packFiles (format : ArchiveFormat Blob) (fs : Tree) (root : Path) (files : List Path) : Except String Blob := do
  let archive ← files.mapM (entryOf fs root)
  let bytes ← format.build archive
  format.compress bytes

/-- A path that is asked for, below the root or absolute. -/
structure RequestedPath where
  isAbsolute : Bool
  path : Path

/-- Where a path leads that is asked for. -/
def RequestedPath.full (requested : RequestedPath) (root : Path) : Path :=
  if requested.isAbsolute then requested.path else root ++ requested.path

/-- Pack the files that paths lead to. A path that leads nowhere is skipped. -/
def packArtifacts (format : ArchiveFormat Blob) (fs : Tree) (root : Path) (paths : List RequestedPath) :
    Except String Blob :=
  packFiles format fs root (paths.flatMap fun path => collectFiles (path.full root) (fs.descend (path.full root)))

/-- Pack the files below a root, but for entries with such names. -/
def packTree (format : ArchiveFormat Blob) (fs : Tree) (root : Path) (excludes : List String) : Except String Blob :=
  match fs.descend root with
  | .dir entries => packFiles format fs root (collectTree excludes root entries)
  | _ => .error "Not a directory (os error 20)"

/-! ## Unpacking -/

/-- The names in the path of an entry. -/
def ArchiveEntry.names (entry : ArchiveEntry) : Path :=
  entry.components.filterMap fun
    | .normal name => some name
    | _ => none

/-- Write the file of an entry below a root. One whose path leads upwards or nowhere is not written. -/
def ArchiveEntry.unpackIn (entry : ArchiveEntry) (root : Path) (fs : Tree) : Except String Tree :=
  if .parentDir ∈ entry.components ∨ entry.names = [] then .ok fs
  else match Tree.make (some entry.content) fs (root ++ entry.names) with
    | some fs => .ok fs
    | none => .error "failed to unpack"

/-- Write the files of the entries of an archive, and what is there when it ends. -/
def unpackEntries (root : Path) : List (Except String ArchiveEntry) → Tree → Except String Unit × Tree
  | [], fs => (.ok (), fs)
  | .error e :: _, fs => (.error e, fs)
  | .ok entry :: entries, fs =>
    if entry.isAbsolute ∨ .parentDir ∈ entry.components then unpackEntries root entries fs
    else match entry.unpackIn root fs with
      | .error e => (.error e, fs)
      | .ok fs => unpackEntries root entries fs

/-- Unpack a blob below a root, which is made if it is missing, and what is there when it ends. -/
def unpackArtifacts (format : ArchiveFormat Blob) (blob : Blob) (root : Path) (fs : Tree) :
    Except String Unit × Tree :=
  match Tree.make none fs root with
  | none => (.error "File exists (os error 17)", fs)
  | some fs =>
    match format.decompress blob >>= format.entries with
    | .error e => (.error e, fs)
    | .ok entries => unpackEntries root entries fs

/-! ## What is packed -/

/-- A path has none of the names. -/
def Unlisted (excludes : List String) (path : Path) : Prop := ∀ name ∈ path, listed excludes name = false

mutual

/-- What is collected are the files that are there. -/
theorem mem_collect (excludes : List String) (tree : Tree) (hdistinct : tree.Distinct) (path full : Path) :
    full ∈ Tree.collect excludes path tree ↔
      ∃ rel, full = path ++ rel ∧ Unlisted excludes rel ∧ (isFile tree rel).isSome := by
  cases tree with
  | file content =>
    rw [Tree.collect, List.mem_singleton]
    constructor
    · intro hfull
      exact ⟨[], by rw [hfull, List.append_nil], by simp [Unlisted], rfl⟩
    · intro ⟨rel, hfull, _, hfile⟩
      cases rel with
      | nil => rw [hfull, List.append_nil]
      | cons => cases hfile
  | other => simp [Tree.collect]
  | dir entries =>
    rw [Tree.collect, mem_collect_entries excludes entries hdistinct.1 hdistinct.2]
    constructor
    · intro ⟨name, rel, hcollected⟩
      exact ⟨name :: rel, hcollected⟩
    · intro ⟨rel, hfull, hunlisted, hfile⟩
      cases rel with
      | nil => cases hfile
      | cons name rel => exact ⟨name, rel, hfull, hunlisted, hfile⟩

/-- What is collected below a directory are the files that are there. -/
theorem mem_collect_entries (excludes : List String) (entries : Entries) (hnames : entries.names.Nodup)
    (hdistinct : entries.Distinct) (dir full : Path) :
    full ∈ Entries.collect excludes dir entries ↔
      ∃ name rel, full = dir ++ name :: rel ∧ Unlisted excludes (name :: rel) ∧
        (isFile (.dir entries) (name :: rel)).isSome := by
  cases entries with
  | nil => simp [Entries.collect]
  | cons target tree entries =>
    obtain ⟨hfresh, hrest⟩ := List.nodup_cons.mp hnames
    have htree := mem_collect excludes tree hdistinct.1 (dir ++ [target]) full
    have hentries := mem_collect_entries excludes entries hrest hdistinct.2 dir full
    rw [Entries.collect, List.mem_append, hentries]
    constructor
    · intro hcollected
      rcases hcollected with hfirst | ⟨name, rel, hfull, hunlisted, hfile⟩
      · split at hfirst
        · exact absurd hfirst List.not_mem_nil
        · rename_i hlisted
          obtain ⟨rel, hfull, hunlisted, hfile⟩ := htree.mp hfirst
          refine ⟨target, rel, by simpa using hfull, ?_, by rwa [isFile_dir_cons, if_pos rfl]⟩
          exact List.forall_mem_cons.mpr ⟨Bool.eq_false_iff.mpr hlisted, hunlisted⟩
      · refine ⟨name, rel, hfull, hunlisted, ?_⟩
        have hne : target ≠ name := fun heq => hfresh (heq ▸ mem_names_of_isFile hfile)
        rwa [isFile_dir_cons, if_neg hne]
    · intro ⟨name, rel, hfull, hunlisted, hfile⟩
      rw [isFile_dir_cons] at hfile
      split at hfile
      · rename_i hname
        left
        obtain ⟨hlisted, hbelow⟩ := List.forall_mem_cons.mp hunlisted
        rw [hname, hlisted, if_neg Bool.false_ne_true, ← hname]
        exact htree.mpr ⟨rel, by rw [hfull, hname, List.append_assoc, List.singleton_append], hbelow, hfile⟩
      · exact .inr ⟨name, rel, hfull, hunlisted, hfile⟩

end

variable {fs gs : Tree} {root dst : Path} {excludes : List String}

/-- The entry of a file below the root. -/
def entryBelow (fs : Tree) (root relative : Path) : ArchiveEntry :=
  ⟨false, relative.map .normal, (isFile fs (root ++ relative)).getD []⟩

/-- Files below the root are packed under their paths below it. -/
theorem entryOf_below {relative : Path} (h : (isFile fs (root ++ relative)).isSome) :
    entryOf fs root (root ++ relative) = .ok (entryBelow fs root relative) := by
  obtain ⟨content, hcontent⟩ := Option.isSome_iff_exists.mp h
  simp [entryOf, entryBelow, stripPrefix, hcontent]

/-- All files are packed when they are below the root. -/
theorem mapM_entryOf {relatives : List Path} (h : ∀ relative ∈ relatives, (isFile fs (root ++ relative)).isSome) :
    (relatives.map (root ++ ·)).mapM (entryOf fs root) = .ok (relatives.map (entryBelow fs root)) := by
  induction relatives with
  | nil => rfl
  | cons relative relatives ih =>
    obtain ⟨hfile, hfiles⟩ := List.forall_mem_cons.mp h
    rw [List.map_cons, List.mapM_cons, entryOf_below hfile, ih hfiles]
    rfl

/-- The names in the path of a packed file are those of its path below the root. -/
theorem entryBelow_names (relative : Path) : (entryBelow fs root relative).names = relative := by
  unfold ArchiveEntry.names entryBelow
  rw [List.filterMap_map]
  exact List.filterMap_some

/-- Files below the root that are packed are read back. -/
theorem packFiles_reads (format : ArchiveFormat Blob) (hroot : isFile fs root = none) {relatives : List Path}
    (h : ∀ relative ∈ relatives, (isFile fs (root ++ relative)).isSome) :
    ∃ blob, packFiles format fs root (relatives.map (root ++ ·)) = .ok blob ∧
      (format.decompress blob >>= format.entries) = .ok (relatives.map fun relative => .ok (entryBelow fs root relative)) := by
  have hplain : ∀ entry ∈ relatives.map (entryBelow fs root), ArchiveEntry.Plain entry := by
    intro entry hentry
    obtain ⟨relative, hrelative, rfl⟩ := List.mem_map.mp hentry
    refine ⟨rfl, ?_, ?_⟩
    · intro hempty
      have hfile := h relative hrelative
      rw [List.map_eq_nil_iff.mp hempty, List.append_nil, hroot] at hfile
      cases hfile
    · intro component hcomponent
      obtain ⟨name, -, rfl⟩ := List.mem_map.mp hcomponent
      exact ⟨name, rfl⟩
  obtain ⟨bytes, hbuild, hentries⟩ := format.build_plain _ hplain
  obtain ⟨blob, hcompress, hdecompress⟩ := format.compress_reads bytes
  refine ⟨blob, ?_, ?_⟩
  · rw [packFiles, mapM_entryOf h]
    exact (congrArg (· >>= format.compress) hbuild).trans hcompress
  · rw [hdecompress]
    exact hentries.trans (congrArg Except.ok (List.map_map ..))

/-! ## What is unpacked -/

/-- Packed files are unpacked where nothing is in their way. -/
theorem unpackEntries_below {relatives : List Path} (hroot : isFile fs root = none)
    (h : ∀ relative ∈ relatives, (isFile fs (root ++ relative)).isSome)
    (hfree : ∀ relative ∈ relatives, gs.Free false (dst ++ relative)) :
    ∃ gs', unpackEntries dst (relatives.map fun relative => .ok (entryBelow fs root relative)) gs = (.ok (), gs') ∧
      (∀ relative ∈ relatives, isFile gs' (dst ++ relative) = isFile fs (root ++ relative)) ∧
      ∀ path, (∀ relative ∈ relatives, path ≠ dst ++ relative) → isFile gs' path = isFile gs path := by
  induction relatives generalizing gs with
  | nil => exact ⟨gs, rfl, by simp, fun _ _ => rfl⟩
  | cons relative relatives ih =>
    obtain ⟨hfile, hfiles⟩ := List.forall_mem_cons.mp h
    obtain ⟨hfirst, hrest⟩ := List.forall_mem_cons.mp hfree
    have hnonempty : relative ≠ [] := by
      intro hempty
      rw [hempty, List.append_nil, hroot] at hfile
      cases hfile
    have hnew : gs.Free (some (entryBelow fs root relative).content).isNone (dst ++ relative) := hfirst
    obtain ⟨gs₁, hmake⟩ := hnew.make
    -- No packed file leads through another one, so writing this one is in the way of none.
    have hfree₁ : ∀ other ∈ relatives, gs₁.Free false (dst ++ other) := by
      intro other hother
      have hapart : ∀ {a b : Path}, (isFile fs (root ++ a)).isSome → (isFile fs (root ++ b)).isSome →
          dst ++ a <+: dst ++ b → dst ++ a = dst ++ b := by
        intro a b ha hb hpre
        have hpaths := (List.prefix_append_right_inj root).mpr ((List.prefix_append_right_inj dst).mp hpre)
        rw [List.append_cancel_left (eq_of_isFile_below ha hb hpaths)]
      apply (hrest other hother).of_make hmake (fun _ => rfl)
      · exact fun hpre hne => absurd (hapart hfile (hfiles other hother) hpre) hne
      · exact fun hpre hne => absurd (hapart (hfiles other hother) hfile hpre) hne
    obtain ⟨gs', hunpack, hpacked, hothers⟩ := ih hfiles hfree₁
    refine ⟨gs', ?_, List.forall_mem_cons.mpr ⟨?_, hpacked⟩, ?_⟩
    · rw [List.map_cons, unpackEntries, if_neg (by simp [entryBelow]), ArchiveEntry.unpackIn, entryBelow_names,
        if_neg (by simp [entryBelow, hnonempty]), hmake]
      exact hunpack
    · by_cases hagain : relative ∈ relatives
      · exact hpacked relative hagain
      · rw [hothers (dst ++ relative) fun other hother heq => hagain (List.append_cancel_left heq ▸ hother),
          isFile_of_make hmake, if_pos rfl]
        obtain ⟨content, hcontent⟩ := Option.isSome_iff_exists.mp hfile
        rw [entryBelow, hcontent, Option.getD_some]
    · intro path hpath
      obtain ⟨hne, hnone⟩ := List.forall_mem_cons.mp hpath
      rw [hothers path hnone, isFile_of_make hmake, if_neg hne]

/-- Packed files are unpacked below another root where nothing is in their way. -/
theorem unpack_packFiles (format : ArchiveFormat Blob) (hroot : isFile fs root = none) {files : List Path}
    (h : ∀ full ∈ files, root <+: full ∧ (isFile fs full).isSome) (hdst : gs.Free true dst)
    (hfree : ∀ relative, root ++ relative ∈ files → gs.Free false (dst ++ relative)) :
    ∃ blob gs', packFiles format fs root files = .ok blob ∧ unpackArtifacts format blob dst gs = (.ok (), gs') ∧
      (∀ relative, root ++ relative ∈ files → isFile gs' (dst ++ relative) = isFile fs (root ++ relative)) ∧
      ∀ path, (∀ relative, root ++ relative ∈ files → path ≠ dst ++ relative) → isFile gs' path = isFile gs path := by
  obtain ⟨relatives, rfl⟩ : ∃ relatives : List Path, files = relatives.map (root ++ ·) := by
    refine ⟨files.map (·.drop root.length), ?_⟩
    rw [List.map_map]
    have hpaths : files.map ((root ++ ·) ∘ (·.drop root.length)) = files.map id :=
      List.map_congr_left fun full hfull => (List.prefix_append_drop (h full hfull).1).symm
    rw [hpaths, List.map_id]
  have hmem : ∀ {relative}, root ++ relative ∈ relatives.map (root ++ ·) ↔ relative ∈ relatives :=
    List.mem_map_of_injective (List.append_right_injective root)
  simp only [hmem] at hfree ⊢
  have hfiles : ∀ relative ∈ relatives, (isFile fs (root ++ relative)).isSome :=
    fun relative hrelative => (h _ (hmem.mpr hrelative)).2
  obtain ⟨blob, hpack, hread⟩ := packFiles_reads format hroot hfiles
  have hnew : gs.Free (none : Option Bytes).isNone dst := hdst
  obtain ⟨gs₁, hmake⟩ := hnew.make
  have hfree₁ : ∀ relative ∈ relatives, gs₁.Free false (dst ++ relative) := by
    intro relative hrelative
    have hnonempty : relative ≠ [] := by
      intro hempty
      have hfile := hfiles relative hrelative
      rw [hempty, List.append_nil, hroot] at hfile
      cases hfile
    apply (hfree relative hrelative).of_make hmake
    · exact fun hsame => absurd (List.append_right_eq_self.mp hsame) hnonempty
    · exact fun _ _ => rfl
    · intro hpre hne
      exact absurd (hpre.eq_of_length_le (List.prefix_append dst relative).length_le) hne
  obtain ⟨gs', hunpack, hpacked, hothers⟩ := unpackEntries_below hroot hfiles hfree₁
  refine ⟨blob, gs', hpack, ?_, hpacked, ?_⟩
  · rw [unpackArtifacts, hmake, hread]
    exact hunpack
  · intro path hpath
    rw [hothers path hpath, isFile_of_make hmake]
    split
    · rename_i hsame
      rw [hsame, hdst.isFile_eq_none]
    · rfl

/-- An archive that keeps its entries as they are. -/
def plainFormat : ArchiveFormat (List ArchiveEntry) where
  build := .ok
  entries := fun archive => .ok (archive.map .ok)
  compress := .ok
  decompress := .ok
  build_plain := fun archive _ => ⟨archive, rfl, rfl⟩
  compress_reads := fun archive => ⟨archive, rfl, rfl⟩

/-- In an empty directory nothing is in the way. -/
theorem free_empty (isDir : Bool) (name : OsString) (path : Path) : (Tree.dir .nil).Free isDir (name :: path) := by
  constructor
  · intro other _ _ kind hlook
    cases other with
    | nil => exact (Option.some.inj hlook).symm
    | cons => cases hlook
  · exact fun kind hlook => by cases hlook

/-- A source directory with a build output. -/
def sourceTree : Tree :=
  .dir (.cons (utf8Bytes "src") (.dir (.cons (utf8Bytes "main.rs") (.file [1]) .nil))
    (.cons (utf8Bytes "target") (.dir (.cons (utf8Bytes "app") (.file [2]) .nil)) .nil))

/-- A source directory lists no name twice. -/
theorem sourceTree_distinct : sourceTree.Distinct := by
  simp [sourceTree, Tree.Distinct, Entries.Distinct, Entries.names, utf8Bytes]
  decide

/-- A path below the root leads to a file that is asked for. -/
def Requested (root : Path) (paths : List RequestedPath) (relative : Path) : Prop :=
  ∃ path ∈ paths, path.full root <+: root ++ relative

/-- The file of an entry of an archive whose path does not lead out of the root. -/
def WrittenBy (root : Path) (archive : List (Except String ArchiveEntry)) (path : Path) (content : Option Bytes) : Prop :=
  ∃ entry, .ok entry ∈ archive ∧ entry.isAbsolute = false ∧ .parentDir ∉ entry.components ∧
    path = root ++ entry.names ∧ content = some entry.content

/-- The entries of an archive change no file but theirs. -/
theorem unpackEntries_changes (root : Path) (archive : List (Except String ArchiveEntry)) (fs : Tree) (path : Path) :
    isFile (unpackEntries root archive fs).2 path = isFile fs path ∨
      WrittenBy root archive path (isFile (unpackEntries root archive fs).2 path) := by
  induction archive generalizing fs with
  | nil => exact .inl rfl
  | cons first archive ih =>
    have hlater : ∀ {content}, WrittenBy root archive path content → WrittenBy root (first :: archive) path content :=
      fun ⟨entry, hentry, hwritten⟩ => ⟨entry, List.mem_cons_of_mem first hentry, hwritten⟩
    cases first with
    | error e => exact .inl rfl
    | ok entry =>
      rw [unpackEntries]
      split
      · exact (ih fs).imp_right hlater
      · rename_i hsafe
        obtain ⟨habsolute, hup⟩ := not_or.mp hsafe
        cases hunpack : entry.unpackIn root fs with
        | error e => exact .inl rfl
        | ok fs₁ =>
          rcases ih fs₁ with hsame | hwritten
          · rw [hsame]
            unfold ArchiveEntry.unpackIn at hunpack
            split at hunpack
            · cases hunpack
              exact .inl rfl
            · split at hunpack
              · rename_i hmake
                cases hunpack
                rw [isFile_of_make hmake]
                split
                · rename_i hpath
                  exact .inr ⟨entry, List.mem_cons_self, Bool.eq_false_iff.mpr habsolute, hup, hpath, rfl⟩
                · exact .inl rfl
              · cases hunpack
          · exact .inr (hlater hwritten)

end Forge.RemoteCache
