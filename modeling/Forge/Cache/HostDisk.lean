import Forge.Cache.PruneReads
import Forge.Common.PathText
import Mathlib.Algebra.BigOperators.Group.List.Basic
import Mathlib.Data.List.Infix

/-!
# The disk that is pruned

A file has a path from the root of the disk. Pruning names a file by a text below one of the two
directories, and the file system goes through the text piece by piece: so the text of a hash can lead
out of the directory, and a text that starts at the root stands for itself. There are no links. A file
that is there can be removed.
-/

namespace Forge.Cache

open Forge.Common

/-- The components of a path from the root. -/
abbrev HostPath := List String

/-- Where the cache is, which paths are directories, and when files were modified. -/
structure Host where
  root : HostPath
  isDir : HostPath → Bool
  modified : HostPath → ℤ

/-- The files. Each is in directories, has names that can be written in a path, and is no directory itself. -/
structure HostDisk (host : Host) where
  files : Files HostPath
  parents : ∀ path ∈ files, ∀ parent, parent <+: path → parent ≠ path → host.isDir parent = true
  plain : ∀ path ∈ files, ∀ name ∈ path, Plain name ∧ '\x00' ∉ name.toList
  notDir : ∀ path ∈ files, host.isDir path = false

namespace Host

variable (host : Host)

/-- The path of one of the two directories. -/
def dirPath : CacheDir → HostPath
  | .fingerprints => host.root ++ ["metadata", "fingerprints"]
  | .objects => host.root ++ ["objects"]

/-- Go from a directory on to what a piece of a path names. -/
def enter (current : HostPath) (piece : List Char) : Option HostPath :=
  if host.isDir current then
    match pieceComponent piece with
    | some (.normal name) => some (current ++ [name])
    | some .parentDir => some current.dropLast
    | _ => some current
  else none

/-- What a path leads to. -/
def resolve (path : CachePath) : Option HostPath :=
  if '\x00' ∈ path.name.toList then none
  else (path.name.toList.splitOn '/').foldlM host.enter (if isAbsolute path.name then [] else host.dirPath path.dir)

/-- The text of a path below a directory. -/
def namesText (names : HostPath) : String := String.ofList (['/'].intercalate (names.map String.toList))

/-- What a file is listed as, if it is below a directory. -/
def below (dir : CacheDir) (file : HostPath) : Option CachePath :=
  match stripPrefix (host.dirPath dir) file with
  | some (name :: names) => some ⟨dir, namesText (name :: names)⟩
  | _ => none

/-- A file can have a path: it is below directories, has names that can be written, and is no directory. -/
structure Allows (path : HostPath) : Prop where
  parents : ∀ parent ∈ path.inits, parent ≠ path → host.isDir parent = true
  plain : ∀ name ∈ path, Plain name ∧ '\x00' ∉ name.toList
  notDir : host.isDir path = false

/-- Whether a file can have a path is decidable. -/
instance (path : HostPath) : Decidable (host.Allows path) :=
  decidable_of_iff ((∀ parent ∈ path.inits, parent ≠ path → host.isDir parent = true) ∧
      (∀ name ∈ path, Plain name ∧ '\x00' ∉ name.toList) ∧ host.isDir path = false)
    ⟨fun h => ⟨h.1, h.2.1, h.2.2⟩, fun h => ⟨h.parents, h.plain, h.notDir⟩⟩

variable {host}

/-- What is below a directory has its path and more. -/
theorem below_eq_some_iff {dir : CacheDir} {file : HostPath} {path : CachePath} :
    host.below dir file = some path ↔
      ∃ names, names ≠ [] ∧ file = host.dirPath dir ++ names ∧ path = ⟨dir, namesText names⟩ := by
  rw [below]
  constructor
  · intro h
    split at h
    · rename_i name names hstrip
      rw [stripPrefix] at hstrip
      split at hstrip
      · rename_i hprefix
        obtain ⟨rest, rfl⟩ := hprefix
        rw [List.drop_left] at hstrip
        cases hstrip
        exact ⟨name :: names, List.cons_ne_nil _ _, rfl, (Option.some.inj h).symm⟩
      · cases hstrip
    · cases h
  · intro h
    obtain ⟨names, hnames, rfl, rfl⟩ := h
    obtain ⟨name, names, rfl⟩ := List.exists_cons_of_ne_nil hnames
    rw [stripPrefix_append]

/-- Going through plain names leads to what they name. -/
theorem foldlM_enter {names : HostPath} {start : HostPath} (hplain : ∀ name ∈ names, Plain name)
    (hdirs : ∀ parent, parent <+: names → parent ≠ names → host.isDir (start ++ parent) = true) :
    (names.map String.toList).foldlM host.enter start = some (start ++ names) := by
  induction names generalizing start with
  | nil => exact congrArg some (List.append_nil start).symm
  | cons name names ih =>
    have hstart := hdirs [] List.nil_prefix (List.cons_ne_nil _ _).symm
    rw [List.append_nil] at hstart
    have henter : host.enter start name.toList = some (start ++ [name]) := by
      rw [enter, if_pos hstart, (hplain name List.mem_cons_self).part]
    rw [List.map_cons, List.foldlM_cons, henter]
    refine (ih (fun other hother => hplain other (List.mem_cons_of_mem _ hother)) fun parent hprefix hne => ?_).trans ?_
    · have hdir := hdirs (name :: parent) (List.cons_prefix_cons.mpr ⟨rfl, hprefix⟩) fun h => hne (List.cons.inj h).2
      rwa [List.append_assoc, List.singleton_append]
    · rw [List.append_assoc, List.singleton_append]

end Host

namespace HostDisk

variable {host : Host}

/-- The disk with files that can have the paths that they have. -/
def ofFiles (files : Files HostPath) (hallowed : ∀ path ∈ files.keys, host.Allows path) : HostDisk host where
  files := files
  parents path hpath parent hprefix hne :=
    (hallowed path (AList.mem_keys.mp hpath)).parents parent ((List.mem_inits _ _).mpr hprefix) hne
  plain path hpath := (hallowed path (AList.mem_keys.mp hpath)).plain
  notDir path hpath := (hallowed path (AList.mem_keys.mp hpath)).notDir

/-- What is listed leads to the file that is listed. -/
theorem resolve_below {disk : HostDisk host} {file : HostPath} {dir : CacheDir} {path : CachePath}
    (hfile : file ∈ disk.files) (hbelow : host.below dir file = some path) : host.resolve path = some file := by
  obtain ⟨names, hnames, rfl, rfl⟩ := Host.below_eq_some_iff.mp hbelow
  have hplain : ∀ name ∈ names, Plain name ∧ '\x00' ∉ name.toList :=
    fun name hname => disk.plain _ hfile name (List.mem_append_right _ hname)
  have hnul : '\x00' ∉ (Host.namesText names).toList := by
    intro h
    rw [Host.namesText, String.toList_ofList] at h
    rcases eq_or_mem_of_mem_intercalate h with hslash | ⟨piece, hpiece, hc⟩
    · exact absurd hslash (by decide)
    · obtain ⟨name, hname, rfl⟩ := List.mem_map.mp hpiece
      exact (hplain name hname).2 hc
  have hrelative : isAbsolute (Host.namesText names) = false := by
    obtain ⟨name, names, rfl⟩ := List.exists_cons_of_ne_nil hnames
    have hname := (hplain name List.mem_cons_self).1
    rw [isAbsolute, Host.namesText, String.toList_ofList, List.map_cons, head?_intercalate_cons '/' hname.ne_nil]
    exact hname.not_absolute
  have hsplit : (Host.namesText names).toList.splitOn '/' = names.map String.toList := by
    rw [Host.namesText, String.toList_ofList]
    refine List.splitOn_intercalate '/' (fun piece hpiece => ?_) (by simpa using hnames)
    obtain ⟨name, hname, rfl⟩ := List.mem_map.mp hpiece
    exact (hplain name hname).1.noSlash
  rw [Host.resolve, if_neg hnul, hrelative, if_neg Bool.false_ne_true, hsplit]
  refine Host.foldlM_enter (fun name hname => (hplain name hname).1) fun parent hprefix hne => ?_
  exact disk.parents _ hfile _ ((List.prefix_append_right_inj _).mpr hprefix) fun h => hne (List.append_cancel_left h)

/-! ## Removing files -/

/-- The disk without a file. -/
def erase (disk : HostDisk host) (file : HostPath) : HostDisk host where
  files := disk.files.erase file
  parents path hpath := disk.parents path (AList.mem_erase.mp hpath).2
  plain path hpath := disk.plain path (AList.mem_erase.mp hpath).2
  notDir path hpath := disk.notDir path (AList.mem_erase.mp hpath).2

/-- The file that a path leads to. -/
def fileAt (disk : HostDisk host) (path : CachePath) : Option HostPath :=
  (host.resolve path).filter fun file => decide (file ∈ disk.files)

/-- The contents of the file that a path leads to. -/
def contents (disk : HostDisk host) (path : CachePath) : Option Bytes := (disk.fileAt path).bind disk.files.lookup

/-- The files below a directory. -/
def listing (disk : HostDisk host) (dir : CacheDir) : List CachePath := disk.files.keys.filterMap (host.below dir)

/-- One disk has all files of another. -/
def Within (disk' disk : HostDisk host) : Prop :=
  ∀ file bytes, disk'.files.lookup file = some bytes → disk.files.lookup file = some bytes

/-- Every file has a number, and the disk has the sum. -/
def total (weight : HostPath → Bytes → ℕ) (disk : HostDisk host) : ℕ :=
  (disk.files.keys.map fun file => (disk.files.lookup file).elim 0 (weight file)).sum

/-- A path leads to a file that is there. -/
theorem fileAt_eq_some_iff {disk : HostDisk host} {path : CachePath} {file : HostPath} :
    disk.fileAt path = some file ↔ host.resolve path = some file ∧ file ∈ disk.files := by
  rw [fileAt, Option.filter_eq_some_iff, decide_eq_true_iff]

/-- A path leads to the same file after another one was removed. -/
theorem fileAt_erase (disk : HostDisk host) (path : CachePath) (file : HostPath) :
    (disk.erase file).fileAt path = (disk.fileAt path).filter fun other => decide (other ≠ file) := by
  rw [fileAt, fileAt, Option.filter_filter]
  refine congrArg (fun p => (host.resolve path).filter p) (funext fun other => ?_)
  rw [Bool.eq_iff_iff, Bool.and_eq_true, decide_eq_true_iff, decide_eq_true_iff, decide_eq_true_iff, erase,
    AList.mem_erase, and_comm]

/-- What is left is as before. -/
theorem within_erase (disk : HostDisk host) (file : HostPath) : (disk.erase file).Within disk := by
  intro other bytes hother
  have hne : other ≠ file := by
    rintro rfl
    rw [erase, AList.lookup_erase] at hother
    cases hother
  rwa [erase, AList.lookup_erase_ne hne] at hother

/-- A disk has its own files. -/
theorem Within.refl (disk : HostDisk host) : disk.Within disk := fun _ _ => id

/-- What is left of what is left is left. -/
theorem Within.trans {first second third : HostDisk host} (h : first.Within second) (h' : second.Within third) :
    first.Within third := fun file bytes hfile => h' file bytes (h file bytes hfile)

/-- A file that is there was there. -/
theorem Within.mem {disk disk' : HostDisk host} (hwithin : disk'.Within disk) {file : HostPath}
    (hfile : file ∈ disk'.files) : file ∈ disk.files := by
  obtain ⟨bytes, hbytes⟩ := Option.isSome_iff_exists.mp (AList.lookup_isSome.mpr hfile)
  exact AList.lookup_isSome.mp (Option.isSome_of_eq_some (hwithin file bytes hbytes))

/-- Removing a file takes its number off the sum. -/
theorem total_erase (weight : HostPath → Bytes → ℕ) {disk : HostDisk host} {file : HostPath} {bytes : Bytes}
    (hfile : disk.files.lookup file = some bytes) :
    (disk.erase file).total weight + weight file bytes = disk.total weight := by
  have hmem : file ∈ disk.files.keys := AList.mem_keys.mp (AList.lookup_isSome.mp (Option.isSome_of_eq_some hfile))
  have hperm : disk.files.keys.Perm (file :: (disk.erase file).files.keys) := by
    have hnot : file ∉ (disk.erase file).files.keys := fun h => (AList.mem_erase.mp (AList.mem_keys.mpr h)).1 rfl
    refine (List.perm_ext_iff_of_nodup disk.files.keys_nodup
      (List.nodup_cons.mpr ⟨hnot, (disk.erase file).files.keys_nodup⟩)).mpr fun other => ?_
    rw [List.mem_cons, ← AList.mem_keys, ← AList.mem_keys, erase, AList.mem_erase]
    by_cases hother : other = file
    · exact iff_of_true (hother ▸ AList.mem_keys.mpr hmem) (Or.inl hother)
    · rw [or_iff_right hother, and_iff_right hother]
  have hsame : (disk.erase file).files.keys.map (fun other => (disk.files.lookup other).elim 0 (weight other)) =
      (disk.erase file).files.keys.map fun other =>
        ((disk.erase file).files.lookup other).elim 0 (weight other) := by
    refine List.map_congr_left fun other hother => ?_
    have hne : other ≠ file := (AList.mem_erase.mp (AList.mem_keys.mpr hother)).1
    rw [erase, AList.lookup_erase_ne hne]
  rw [total, total, (hperm.map _).sum_eq, List.map_cons, List.sum_cons, hfile, Option.elim_some, hsame, Nat.add_comm]

/-! ## Listings -/

/-- What is listed below a directory leads to a file below it. -/
theorem mem_listing_iff {disk : HostDisk host} {dir : CacheDir} {path : CachePath} :
    path ∈ disk.listing dir ↔ ∃ file, host.below dir file = some path ∧ disk.fileAt path = some file := by
  rw [listing, List.mem_filterMap]
  constructor
  · intro h
    obtain ⟨file, hfile, hbelow⟩ := h
    have hmem := AList.mem_keys.mpr hfile
    exact ⟨file, hbelow, fileAt_eq_some_iff.mpr ⟨resolve_below hmem hbelow, hmem⟩⟩
  · intro h
    obtain ⟨file, hbelow, hfile⟩ := h
    exact ⟨file, AList.mem_keys.mp (fileAt_eq_some_iff.mp hfile).2, hbelow⟩

/-- No file is listed twice. -/
theorem listing_nodup (disk : HostDisk host) (dir : CacheDir) : (disk.listing dir).Nodup := by
  rw [listing, List.Nodup, List.pairwise_filterMap]
  refine disk.files.keys_nodup.imp_of_mem fun hfile hfile' hne path hpath path' hpath' heq => hne ?_
  subst heq
  have hresolve := resolve_below (AList.mem_keys.mpr hfile) hpath
  rw [resolve_below (AList.mem_keys.mpr hfile') hpath'] at hresolve
  exact (Option.some.inj hresolve).symm

/-- What is known about the file that a path leads to. -/
def stat (disk : HostDisk host) (path : CachePath) : Option FileStat :=
  (disk.fileAt path).bind fun file => (disk.files.lookup file).map fun bytes => ⟨bytes.length, host.modified file⟩

/-- A file that is there has contents. -/
theorem exists_bytes {disk : HostDisk host} {path : CachePath} {file : HostPath} (hfile : disk.fileAt path = some file) :
    ∃ bytes, disk.files.lookup file = some bytes :=
  Option.isSome_iff_exists.mp (AList.lookup_isSome.mpr (fileAt_eq_some_iff.mp hfile).2)

/-- The size and the time of a file that is there are known. -/
theorem stat_of_fileAt {disk : HostDisk host} {path : CachePath} {file : HostPath} {bytes : Bytes}
    (hfile : disk.fileAt path = some file) (hbytes : disk.files.lookup file = some bytes) :
    disk.stat path = some ⟨bytes.length, host.modified file⟩ := by
  rw [stat, hfile, Option.bind_some, hbytes, Option.map_some]

/-- Remove the file that a path leads to. -/
def remove (disk : HostDisk host) (path : CachePath) : Bool × HostDisk host :=
  match disk.fileAt path with
  | some file => (true, disk.erase file)
  | none => (false, disk)

end HostDisk

/-- The order in which walks give the files. -/
structure WalkOrder (host : Host) where
  entries : HostDisk host → CacheDir → List CachePath
  perm : ∀ disk dir, (entries disk dir).Perm (disk.listing dir)

/-- The order in which files are kept. -/
def WalkOrder.kept (host : Host) : WalkOrder host := ⟨HostDisk.listing, fun _ _ => List.Perm.refl _⟩

/-- A cache with nothing below its directories but files. -/
def flatHost : Host where
  root := ["cache"]
  isDir path := decide (path ∈ [[], ["cache"], ["cache", "objects"], ["cache", "metadata"],
    ["cache", "metadata", "fingerprints"]])
  modified _ := 0

namespace HostDisk

variable {host : Host} (order : WalkOrder host)

/-- What an operation does. -/
def perform : (op : PruneOp) → HostDisk host → op.Response × HostDisk host
  | .list dir, disk => (order.entries disk dir, disk)
  | .read path, disk => (disk.contents path, disk)
  | .stat path, disk => (disk.stat path, disk)
  | .remove path, disk => disk.remove path

/-- What the disk shows. -/
def view (disk : HostDisk host) : DiskView := ⟨order.entries disk, disk.contents, disk.stat⟩

/-- The operations show this. -/
theorem shows (disk : HostDisk host) : Shows (perform order) disk (disk.view order) :=
  ⟨fun _ => rfl, fun _ => rfl, fun _ => rfl⟩

end HostDisk

end Forge.Cache
