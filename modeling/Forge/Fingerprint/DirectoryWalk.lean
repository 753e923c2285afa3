import Forge.Fingerprint.DirectoryTree

/-!
# What a walk finds, and in which order

The files of a walk are those of the map from paths to contents, ordered by the components
of their paths. The order in which a directory lists its entries does not matter.
-/

namespace Forge.Fingerprint

open Forge.Common

variable {f : DirectoryFilter} {base rel : Path}

/-! ## Order -/

/-- The components of a path as numbers. -/
def pathKey (path : Path) : List (List ℕ) :=
  path.map fun name => name.map UInt8.toNat

/-- Whether a path comes before another in a walk. -/
def PathLt (a b : Path) : Prop := pathKey a < pathKey b

/-- A name is determined by its numbers. -/
theorem nameKey_injective : Function.Injective fun name : OsString => name.map UInt8.toNat :=
  List.map_injective_iff.mpr fun _ _ => UInt8.toNat_inj.mp

/-- Paths are ordered by the first component in which they differ. -/
theorem pathLt_of_lt {a b : OsString} (h : a.map UInt8.toNat < b.map UInt8.toNat) (rel p q : Path) :
    PathLt (rel ++ a :: p) (rel ++ b :: q) := by
  unfold PathLt pathKey
  rw [List.map_append, List.map_append]
  exact List.append_left_lt (List.cons_lt_cons_iff.mpr (.inl h))

/-- Files in the order of their paths are the same when they are the same files. -/
theorem eq_of_sorted {l l' : List HashedFile} (h : l.Pairwise fun x y => PathLt x.1 y.1)
    (h' : l'.Pairwise fun x y => PathLt x.1 y.1) (hmem : ∀ x, x ∈ l ↔ x ∈ l') : l = l' := by
  have hnodup : ∀ {l : List HashedFile}, l.Pairwise (fun x y => PathLt x.1 y.1) → l.Nodup := by
    intro l hsorted
    refine hsorted.imp fun {x y} hlt heq => ?_
    rw [heq] at hlt
    exact lt_irrefl _ hlt
  have hperm : l.Perm l' := (List.perm_ext_iff_of_nodup (hnodup h) (hnodup h')).mpr hmem
  exact hperm.eq_of_pairwise (fun x y _ _ hxy hyx => absurd hxy (lt_asymm hyx)) h h'

/-- Names are ordered totally. -/
instance {α : Type*} : Std.Total fun a b : OsString × α => NameLe a.1 b.1 :=
  ⟨fun a b => le_total (a.1.map UInt8.toNat) (b.1.map UInt8.toNat)⟩

/-- The order of names is transitive. -/
instance {α : Type*} : IsTrans (OsString × α) fun a b => NameLe a.1 b.1 :=
  ⟨fun _ _ _ hab hbc => le_trans hab hbc⟩

/-- Sorting by names changes nothing but the order. -/
theorem sortByName_perm {α : Type*} (l : List (OsString × α)) : (sortByName l).Perm l :=
  List.perm_insertionSort _ l

/-- Entries with different names are in the order of their names after sorting. -/
theorem sortByName_sorted {α : Type*} {l : List (OsString × α)} (hnodup : (l.map (·.1)).Nodup) :
    (sortByName l).Pairwise fun a b => a.1.map UInt8.toNat < b.1.map UInt8.toNat := by
  have hle : (sortByName l).Pairwise fun a b => a.1.map UInt8.toNat ≤ b.1.map UInt8.toNat :=
    List.pairwise_insertionSort _ l
  have hnames : ((sortByName l).map (·.1)).Nodup := ((sortByName_perm l).map (·.1)).nodup_iff.mpr hnodup
  have hne : (sortByName l).Pairwise fun a b => a.1 ≠ b.1 := List.pairwise_map.mp hnames
  exact (hle.and hne).imp fun ⟨h, hdiff⟩ => lt_of_le_of_ne h fun heq => hdiff (nameKey_injective heq)

/-! ## Paths -/

/-- The blocks of a walk are named as the entries. -/
theorem Entries.walk_names (entries : Entries) : (entries.walk f base rel).map (·.1) = entries.names := by
  induction entries using Entries.rec (motive_1 := fun _ => True) with
  | file | other | dir => trivial
  | nil => rfl
  | cons name tree entries _ ih => rw [Entries.walk, List.map_cons, ih, Entries.names]

mutual

/-- The files of a walk lie below its path. -/
theorem Tree.walk_below (tree : Tree) (rel : Path) : ∀ x ∈ tree.walk f base rel, rel <+: x.1 := by
  cases tree with
  | file content =>
    intro x hx
    rw [Tree.walk] at hx
    split at hx
    · obtain rfl := List.mem_singleton.mp hx
      exact List.prefix_refl rel
    · exact absurd hx List.not_mem_nil
  | other => exact fun x hx => absurd hx List.not_mem_nil
  | dir entries =>
    intro x hx
    rw [Tree.walk] at hx
    obtain ⟨block, hblock, hx⟩ := List.mem_flatMap.mp hx
    have hbelow := entries.walk_below rel block ((sortByName_perm _).mem_iff.mp hblock) x hx
    exact (List.prefix_append rel _).trans hbelow

/-- The files of an entry lie below its path. -/
theorem Entries.walk_below (entries : Entries) (rel : Path) :
    ∀ block ∈ entries.walk f base rel, ∀ x ∈ block.2, rel ++ [block.1] <+: x.1 := by
  cases entries with
  | nil => exact fun block hblock => absurd hblock List.not_mem_nil
  | cons name tree entries =>
    rw [Entries.walk]
    refine List.forall_mem_cons.mpr ⟨?_, entries.walk_below rel⟩
    intro x hx
    dsimp only at hx
    split at hx
    · exact absurd hx List.not_mem_nil
    · exact tree.walk_below (rel ++ [name]) x hx

end

mutual

/-- The files of a walk are in the order of their paths. -/
theorem Tree.walk_sorted (tree : Tree) (hdistinct : tree.Distinct) (rel : Path) :
    (tree.walk f base rel).Pairwise fun x y => PathLt x.1 y.1 := by
  cases tree with
  | file content =>
    rw [Tree.walk]
    split
    · exact List.pairwise_singleton _ _
    · exact List.Pairwise.nil
  | other => exact List.Pairwise.nil
  | dir entries =>
    obtain ⟨hnames, hbelow⟩ := hdistinct
    rw [Tree.walk, List.pairwise_flatMap]
    constructor
    · exact fun block hblock => entries.walk_sorted hbelow rel block ((sortByName_perm _).mem_iff.mp hblock)
    · have hsorted := sortByName_sorted (by rw [Entries.walk_names]; exact hnames : ((entries.walk f base rel).map (·.1)).Nodup)
      refine hsorted.imp_of_mem fun {a b} ha hb hlt x hx y hy => ?_
      obtain ⟨p, hp⟩ := entries.walk_below rel a ((sortByName_perm _).mem_iff.mp ha) x hx
      obtain ⟨q, hq⟩ := entries.walk_below rel b ((sortByName_perm _).mem_iff.mp hb) y hy
      rw [← hp, ← hq, List.append_assoc, List.append_assoc]
      exact pathLt_of_lt hlt rel p q

/-- The files of an entry are in the order of their paths. -/
theorem Entries.walk_sorted (entries : Entries) (hdistinct : entries.Distinct) (rel : Path) :
    ∀ block ∈ entries.walk f base rel, block.2.Pairwise fun x y => PathLt x.1 y.1 := by
  cases entries with
  | nil => exact fun block hblock => absurd hblock List.not_mem_nil
  | cons name tree entries =>
    rw [Entries.walk]
    refine List.forall_mem_cons.mpr ⟨?_, entries.walk_sorted hdistinct.2 rel⟩
    dsimp only
    split
    · exact List.Pairwise.nil
    · exact tree.walk_sorted hdistinct.1 (rel ++ [name])

end

/-! ## Membership -/

/-- Only an entry that is listed has allowed files. -/
theorem Entries.mem_names_of_allowed {entries : Entries} {name : OsString} {path : Path} {content : Bytes}
    (h : entries.allowed f base rel name path = some content) : name ∈ entries.names := by
  induction entries using Entries.rec (motive_1 := fun _ => True) with
  | file | other | dir => trivial
  | nil => exact absurd h nofun
  | cons name' tree entries _ ih =>
    rw [Entries.allowed] at h
    split at h
    · rename_i hname
      exact hname ▸ List.mem_cons_self
    · exact List.mem_cons_of_mem name' (ih h)

mutual

/-- The files of a walk are the allowed files. -/
theorem Tree.mem_walk_iff (tree : Tree) (hdistinct : tree.Distinct) (rel : Path) (x : HashedFile) :
    x ∈ tree.walk f base rel ↔ ∃ path, x.1 = rel ++ path ∧ tree.allowed f base rel path = some x.2 := by
  cases tree with
  | file content =>
    rw [Tree.walk]
    constructor
    · intro hx
      split at hx
      · rename_i hallowed
        obtain rfl := List.mem_singleton.mp hx
        exact ⟨[], (List.append_nil rel).symm, by rw [Tree.allowed, if_pos hallowed]⟩
      · exact absurd hx List.not_mem_nil
    · rintro ⟨path, hpath, hallowed⟩
      cases path with
      | cons name path => exact absurd hallowed nofun
      | nil =>
        rw [Tree.allowed] at hallowed
        obtain ⟨hfilter, hcontent⟩ := Option.ite_none_right_eq_some.mp hallowed
        rw [if_pos hfilter, List.mem_singleton]
        exact Prod.ext (hpath.trans (List.append_nil rel)) (Option.some.inj hcontent).symm
  | other =>
    refine iff_of_false List.not_mem_nil ?_
    rintro ⟨path, -, hallowed⟩
    exact absurd hallowed (by simp [Tree.allowed])
  | dir entries =>
    have hentries := entries.mem_walk_iff hdistinct.1 hdistinct.2 rel x
    rw [Tree.walk, List.mem_flatMap]
    simp only [(sortByName_perm _).mem_iff]
    rw [hentries]
    constructor
    · rintro ⟨name, path, hpath, hallowed⟩
      exact ⟨name :: path, hpath, hallowed⟩
    · rintro ⟨path, hpath, hallowed⟩
      cases path with
      | nil => exact absurd hallowed nofun
      | cons name path => exact ⟨name, path, hpath, hallowed⟩

/-- The files of the entries are the allowed files. -/
theorem Entries.mem_walk_iff (entries : Entries) (hnames : entries.names.Nodup) (hdistinct : entries.Distinct)
    (rel : Path) (x : HashedFile) :
    (∃ block ∈ entries.walk f base rel, x ∈ block.2) ↔
      ∃ name path, x.1 = rel ++ name :: path ∧ entries.allowed f base rel name path = some x.2 := by
  cases entries with
  | nil =>
    refine iff_of_false ?_ ?_
    · rintro ⟨block, hblock, -⟩
      exact absurd hblock List.not_mem_nil
    · rintro ⟨name, path, -, hallowed⟩
      exact absurd hallowed nofun
  | cons name tree entries =>
    obtain ⟨hfresh, hrest⟩ := List.nodup_cons.mp hnames
    have htree := tree.mem_walk_iff hdistinct.1 (rel ++ [name]) x
    have hentries := entries.mem_walk_iff hrest hdistinct.2 rel x
    have hfirst : (x ∈ if f.skips name tree = true then [] else tree.walk f base (rel ++ [name])) ↔
        ∃ path, x.1 = rel ++ name :: path ∧ (Entries.cons name tree entries).allowed f base rel name path = some x.2 := by
      simp only [Entries.allowed, if_true]
      split
      · simp
      · rw [htree]
        simp only [List.append_assoc, List.singleton_append]
    rw [Entries.walk, List.exists_mem_cons_iff, hfirst, hentries]
    constructor
    · rintro (⟨path, hpath, hallowed⟩ | ⟨name', path, hpath, hallowed⟩)
      · exact ⟨name, path, hpath, hallowed⟩
      · have hother : name ≠ name' := fun hsame => hfresh (hsame ▸ Entries.mem_names_of_allowed hallowed)
        exact ⟨name', path, hpath, by rw [Entries.allowed, if_neg hother]; exact hallowed⟩
    · rintro ⟨name', path, hpath, hallowed⟩
      by_cases hsame : name = name'
      · subst hsame
        exact .inl ⟨path, hpath, hallowed⟩
      · rw [Entries.allowed, if_neg hsame] at hallowed
        exact .inr ⟨name', path, hpath, hallowed⟩

end

/-! ## The hashed files -/

/-- The hashed files are those of the map. -/
theorem mem_hashedFiles_iff {tree : Tree} (hdistinct : tree.Distinct) (x : HashedFile) :
    x ∈ hashedFiles f base tree ↔ fileMap f base tree x.1 = some x.2 := by
  unfold hashedFiles fileMap
  split
  · rw [tree.mem_walk_iff hdistinct]
    simp
  · simp

/-- The hashed files are in the order of their paths. -/
theorem hashedFiles_sorted {tree : Tree} (hdistinct : tree.Distinct) :
    (hashedFiles f base tree).Pairwise fun x y => PathLt x.1 y.1 := by
  unfold hashedFiles
  split
  · exact tree.walk_sorted hdistinct []
  · exact List.Pairwise.nil

/-- Two trees have the same hashed files, in the same order, when they have the same map. -/
theorem hashedFiles_eq_iff {f' : DirectoryFilter} {base' : Path} {tree tree' : Tree} (hdistinct : tree.Distinct)
    (hdistinct' : tree'.Distinct) :
    hashedFiles f base tree = hashedFiles f' base' tree' ↔ fileMap f base tree = fileMap f' base' tree' := by
  constructor
  · intro hfiles
    funext path
    refine Option.ext fun content => ?_
    have hmem := @mem_hashedFiles_iff f base _ hdistinct (path, content)
    have hmem' := @mem_hashedFiles_iff f' base' _ hdistinct' (path, content)
    rw [← hmem, ← hmem', hfiles]
  · intro hmap
    refine eq_of_sorted (hashedFiles_sorted hdistinct) (hashedFiles_sorted hdistinct') fun x => ?_
    rw [mem_hashedFiles_iff hdistinct, mem_hashedFiles_iff hdistinct', hmap]

/-! ## What the map reads -/

/-- Whether the file at a path below a directory is hashed if it is there. -/
def DirectoryFilter.reads (f : DirectoryFilter) (dir path : Path) : Bool :=
  path.dropLast.all (fun name => !f.isExcludedDir (toStringLossy name)) && f.isAllowedFile (dir ++ path)

/-- A file is where its path leads. -/
@[simp] theorem isFile_file_nil (content : Bytes) : isFile (.file content) [] = some content := rfl

/-- Nothing lies below a file. -/
@[simp] theorem isFile_file_cons (content : Bytes) (name : OsString) (path : Path) :
    isFile (.file content) (name :: path) = none := rfl

/-- What is neither a file nor a directory has no files. -/
@[simp] theorem isFile_other (path : Path) : isFile .other path = none := by
  cases path <;> rfl

/-- A directory is no file. -/
@[simp] theorem isFile_dir_nil (entries : Entries) : isFile (.dir entries) [] = none := rfl

/-- Nothing is in an empty directory. -/
@[simp] theorem isFile_empty (path : Path) : isFile (.dir .nil) path = none := by
  cases path <;> rfl

/-- A file in a directory is below the entry of its name. -/
@[simp] theorem isFile_dir_cons (name target : OsString) (tree : Tree) (entries : Entries) (path : Path) :
    isFile (.dir (.cons name tree entries)) (target :: path) =
      if name = target then isFile tree path else isFile (.dir entries) (target :: path) := by
  by_cases hname : name = target
  · simp [isFile, Tree.descend, Entries.descend, hname]
  · simp [isFile, Tree.descend, Entries.descend, hname]

/-- Nothing lies below what is no directory. -/
theorem isFile_cons_of_not_isDir {tree : Tree} (h : tree.isDir = false) (name : OsString) (path : Path) :
    isFile tree (name :: path) = none := by
  cases tree with
  | file | other => rfl
  | dir => exact absurd h nofun

/-- What is a directory is no file. -/
theorem isFile_nil_of_isDir {tree : Tree} (h : tree.isDir = true) : isFile tree [] = none := by
  cases tree with
  | file | other => exact absurd h nofun
  | dir => rfl

mutual

/-- The allowed files are the files that the filter reads. -/
theorem Tree.allowed_eq (tree : Tree) (rel path : Path) :
    tree.allowed f base rel path = if f.reads (base ++ rel) path then isFile tree path else none := by
  cases tree with
  | file content =>
    cases path with
    | nil => simp [Tree.allowed, DirectoryFilter.reads, isFile, Tree.descend]
    | cons name path => simp [Tree.allowed, isFile, Tree.descend]
  | other => cases path <;> simp [Tree.allowed, isFile, Tree.descend]
  | dir entries =>
    cases path with
    | nil => simp [Tree.allowed, isFile, Tree.descend]
    | cons name path => exact entries.allowed_eq rel name path

/-- The allowed files of the entries are the files that the filter reads. -/
theorem Entries.allowed_eq (entries : Entries) (rel : Path) (name : OsString) (path : Path) :
    entries.allowed f base rel name path =
      if f.reads (base ++ rel) (name :: path) then isFile (.dir entries) (name :: path) else none := by
  cases entries with
  | nil => simp [Entries.allowed, isFile, Tree.descend, Entries.descend]
  | cons first tree entries =>
    have hrest := entries.allowed_eq rel name path
    have htree := tree.allowed_eq (rel ++ [first]) path
    rw [Entries.allowed]
    by_cases hname : first = name
    · subst hname
      rw [if_pos rfl, isFile_dir_cons, if_pos rfl, htree]
      unfold DirectoryFilter.skips DirectoryFilter.reads
      cases path with
      | nil =>
        cases hdir : tree.isDir with
        | false => simp
        | true => simp [isFile_nil_of_isDir hdir]
      | cons next path =>
        cases hdir : tree.isDir with
        | false => simp [isFile_cons_of_not_isDir hdir]
        | true =>
          cases hexcluded : f.isExcludedDir (toStringLossy first) with
          | false => simp [hexcluded]
          | true => simp [hexcluded]
    · rw [if_neg hname, isFile_dir_cons, if_neg hname, hrest]

end

/-- The map of a directory has the files below it that the filter reads. -/
theorem fileMap_eq (tree : Tree) (path : Path) :
    fileMap f base tree path = if path ≠ [] ∧ f.reads base path then isFile tree path else none := by
  unfold fileMap
  rw [tree.allowed_eq, List.append_nil]
  cases hdir : tree.isDir with
  | false =>
    cases path with
    | nil => simp
    | cons name path => simp [isFile_cons_of_not_isDir hdir]
  | true =>
    cases path with
    | nil => simp [isFile_nil_of_isDir hdir]
    | cons name path => simp

mutual

/-- Following a path leads on from where its start leads. -/
theorem Tree.descend_append (tree : Tree) (path more : Path) :
    tree.descend (path ++ more) = (tree.descend path).descend more := by
  cases path with
  | nil => simp [Tree.descend]
  | cons name path =>
    cases tree with
    | file | other => cases more <;> rfl
    | dir entries => exact entries.descend_append name path more

/-- Following a path from an entry leads on from where its start leads. -/
theorem Entries.descend_append (entries : Entries) (name : OsString) (path more : Path) :
    entries.descend name (path ++ more) = (entries.descend name path).descend more := by
  cases entries with
  | nil => cases more <;> rfl
  | cons first tree entries =>
    rw [Entries.descend, Entries.descend]
    split
    · exact tree.descend_append path more
    · exact entries.descend_append name path more

end

/-- The files below a directory. -/
theorem isFile_append (fs : Tree) (dir path : Path) : isFile fs (dir ++ path) = isFile (fs.descend dir) path := by
  rw [isFile, isFile, fs.descend_append]

mutual

/-- No directory below lists a name twice. -/
theorem Tree.Distinct.descend {tree : Tree} (h : tree.Distinct) (path : Path) : (tree.descend path).Distinct := by
  cases path with
  | nil =>
    simp only [Tree.descend]
    exact h
  | cons name path =>
    cases tree with
    | file | other => trivial
    | dir entries => exact h.2.descend name path

/-- No directory below an entry lists a name twice. -/
theorem Entries.Distinct.descend {entries : Entries} (h : entries.Distinct) (name : OsString) (path : Path) :
    (entries.descend name path).Distinct := by
  cases entries with
  | nil => trivial
  | cons first tree entries =>
    rw [Entries.descend]
    split
    · exact h.1.descend path
    · exact h.2.descend name path

end

/-- Two states have the same hashed files in a directory when they have the same files that the filter
reads. -/
theorem hashedFiles_congr {fs fs' : Tree} (hdistinct : fs.Distinct) (hdistinct' : fs'.Distinct) {dir : Path}
    (hsame : ∀ path, path ≠ [] → f.reads dir path = true → isFile fs (dir ++ path) = isFile fs' (dir ++ path)) :
    hashedFiles f dir (fs.descend dir) = hashedFiles f dir (fs'.descend dir) := by
  rw [hashedFiles_eq_iff (hdistinct.descend dir) (hdistinct'.descend dir)]
  funext path
  rw [fileMap_eq, fileMap_eq]
  split
  · rename_i hread
    rw [← isFile_append, ← isFile_append, hsame path hread.1 hread.2]
  · rfl

end Forge.Fingerprint
