import Forge.Fingerprint.DirectoryWalk

/-!
# What the fingerprint of a directory tells

The text that is fed to the hasher has no lengths in it, so that the content of a file can
spell the paths and the contents of the files after it. Two directories with different
files are told apart exactly when this does not happen at the first file in which their
walks differ. Directories with the same files are never told apart.
-/

namespace Forge.Fingerprint

open Forge.Common

/-! ## Texts that can be cut in two ways -/

/-- Files spell a text and the other files after it: they are compared file by file, and what a file has
beyond the text is to be spelled by the other side. -/
inductive Spells : Bytes → List HashedFile → List HashedFile → Prop where
  | done : Spells [] [] []
  | whole {text : Bytes} {files others : List HashedFile} (x : HashedFile) (rest : Spells text files others) :
    Spells (fileText x ++ text) (x :: files) others
  | part {text more : Bytes} {files others : List HashedFile} (x : HashedFile) (cut : fileText x = text ++ more)
    (rest : Spells more others files) : Spells text (x :: files) others

/-- The text of files starts with the text of the first one. -/
@[simp] theorem filesText_cons (x : HashedFile) (files : List HashedFile) :
    filesText (x :: files) = fileText x ++ filesText files := rfl

/-- A file has a text. -/
theorem fileText_ne_nil (x : HashedFile) : fileText x ≠ [] := by
  simp [fileText]

/-- Files without a text are none. -/
theorem filesText_eq_nil_iff {files : List HashedFile} : filesText files = [] ↔ files = [] := by
  cases files with
  | nil => exact iff_of_true rfl rfl
  | cons x files => simp [fileText_ne_nil]

/-- What is spelled is the text and the text of the other files. -/
theorem Spells.filesText {text : Bytes} {files others : List HashedFile} (h : Spells text files others) :
    filesText files = text ++ filesText others := by
  induction h with
  | done => rfl
  | whole x rest ih => rw [filesText_cons, ih, List.append_assoc]
  | part x cut rest ih => rw [filesText_cons, ih, cut, List.append_assoc]

/-- A text with the text of other files after it is spelled by the files of which it is the text. -/
theorem spells_of_filesText {text : Bytes} {files others : List HashedFile}
    (h : filesText files = text ++ filesText others) : Spells text files others := by
  generalize hsize : files.length + others.length = size
  induction size generalizing text files others with
  | zero =>
    obtain ⟨rfl, rfl⟩ : files = [] ∧ others = [] := by
      rw [← List.length_eq_zero_iff, ← List.length_eq_zero_iff]
      omega
    obtain ⟨rfl, -⟩ := List.append_eq_nil_iff.mp h.symm
    exact .done
  | succ size ih =>
    cases files with
    | nil =>
      obtain ⟨rfl, hothers⟩ := List.append_eq_nil_iff.mp h.symm
      obtain rfl := filesText_eq_nil_iff.mp hothers
      exact .done
    | cons x files =>
      rw [List.length_cons] at hsize
      rw [filesText_cons] at h
      rcases List.append_eq_append_iff.mp h with ⟨more, htext, hrest⟩ | ⟨more, hcut, hrest⟩
      · rw [htext]
        exact .whole x (ih hrest (by omega))
      · exact .part x hcut (ih hrest (by omega))

/-- At the first file in which two walks differ, one file starts with the text of the other, and what it
has beyond it is spelled by the files that come after the other. -/
def Ambiguous : List HashedFile → List HashedFile → Prop
  | x :: files, y :: others =>
    if x = y then Ambiguous files others
    else (∃ text, fileText y = fileText x ++ text ∧ Spells text files others) ∨
      (∃ text, fileText x = fileText y ++ text ∧ Spells text others files)
  | _, _ => False

/-- Files have the same text exactly when they are the same or ambiguous. -/
theorem filesText_eq_iff {files others : List HashedFile} :
    filesText files = filesText others ↔ files = others ∨ Ambiguous files others := by
  induction files generalizing others with
  | nil =>
    have hothers : filesText [] = filesText others ↔ [] = others := by
      rw [eq_comm, eq_comm (a := []), ← filesText_eq_nil_iff]
      rfl
    rw [hothers]
    exact (or_iff_left (by simp [Ambiguous])).symm
  | cons x files ih =>
    cases others with
    | nil =>
      refine iff_of_false ?_ (by simp [Ambiguous])
      exact fun h => absurd (filesText_eq_nil_iff.mp h) nofun
    | cons y others =>
      rw [Ambiguous]
      by_cases hxy : x = y
      · subst hxy
        rw [if_pos rfl, filesText_cons, filesText_cons, List.append_cancel_left_eq, ih, List.cons.injEq,
          and_iff_right rfl]
      · rw [if_neg hxy, or_iff_right (fun h => hxy (List.cons.inj h).1), filesText_cons, filesText_cons]
        constructor
        · intro h
          rcases List.append_eq_append_iff.mp h with ⟨text, htext, hrest⟩ | ⟨text, htext, hrest⟩
          · exact .inl ⟨text, htext, spells_of_filesText hrest⟩
          · exact .inr ⟨text, htext, spells_of_filesText hrest⟩
        · rintro (⟨text, htext, hrest⟩ | ⟨text, htext, hrest⟩)
          · rw [htext, hrest.filesText, List.append_assoc]
          · rw [htext, hrest.filesText, List.append_assoc]

/-- Files are not ambiguous with themselves. -/
theorem not_ambiguous_self (files : List HashedFile) : ¬ Ambiguous files files := by
  induction files with
  | nil => exact id
  | cons x files ih =>
    rw [Ambiguous, if_pos rfl]
    exact ih

/-! ## Directories -/

/-- A directory with its path. No directory in it lists a name twice. -/
structure Directory where
  base : Path
  tree : Tree
  distinct : tree.Distinct

/-- The files of a directory that are hashed. -/
def Directory.files (f : DirectoryFilter) (d : Directory) : List HashedFile :=
  hashedFiles f d.base d.tree

/-- The text of a directory that is fed to the hasher. -/
def Directory.text (f : DirectoryFilter) (d : Directory) : Bytes :=
  hashDirectoryFiltered f d.base d.tree

/-- The map of a directory from paths to contents, for the files that a filter allows. -/
def Directory.map (f : DirectoryFilter) (d : Directory) : Path → Option Bytes :=
  fileMap f d.base d.tree

/-- Two directories are told apart by what is fed to the hasher exactly when their maps differ. -/
structure Faithful (f : DirectoryFilter) (d d' : Directory) : Prop where
  differ : d.map f ≠ d'.map f → d.text f ≠ d'.text f
  same : d.map f = d'.map f → d.text f = d'.text f

/-- Directories with the same map have the same text, in whatever order their entries are listed. -/
theorem text_eq_of_map_eq {f : DirectoryFilter} {d d' : Directory} (hmap : d.map f = d'.map f) :
    d.text f = d'.text f :=
  congrArg filesText ((hashedFiles_eq_iff d.distinct d'.distinct).mpr hmap)

/-- Two directories have the same map exactly when they have the same hashed files. -/
theorem map_eq_iff {f : DirectoryFilter} {d d' : Directory} : d.map f = d'.map f ↔ d.files f = d'.files f :=
  (hashedFiles_eq_iff d.distinct d'.distinct).symm

/-- Two directories are told apart as they should exactly when their walks are not ambiguous. -/
theorem faithful_iff (f : DirectoryFilter) (d d' : Directory) :
    Faithful f d d' ↔ ¬ Ambiguous (d.files f) (d'.files f) := by
  constructor
  · intro hfaithful hambiguous
    refine hfaithful.differ (fun hmap => ?_) (filesText_eq_iff.mpr (.inr hambiguous))
    rw [map_eq_iff.mp hmap] at hambiguous
    exact not_ambiguous_self _ hambiguous
  · intro hclear
    refine ⟨fun hmap htext => ?_, text_eq_of_map_eq⟩
    exact hmap (map_eq_iff.mpr ((filesText_eq_iff.mp htext).resolve_right hclear))

/-! ## Files in one directory -/

/-- A directory with one file. -/
def oneFile (base : Path) (name : OsString) (content : Bytes) : Directory where
  base := base
  tree := .dir (.cons name (.file content) .nil)
  distinct := ⟨List.nodup_singleton name, trivial, trivial⟩

/-- A directory with two files of different names. -/
def twoFiles (base : Path) (name other : OsString) (hne : name ≠ other) (content content' : Bytes) : Directory where
  base := base
  tree := .dir (.cons name (.file content) (.cons other (.file content') .nil))
  distinct := ⟨by simpa [Entries.names] using hne, trivial, trivial, trivial⟩

/-- The hashed file of a directory with one file. -/
theorem files_oneFile {f : DirectoryFilter} {base : Path} {name : OsString} (hallowed : f.isAllowedFile (base ++ [name]) = true)
    (content : Bytes) : (oneFile base name content).files f = [([name], content)] := by
  simp [Directory.files, oneFile, hashedFiles, Tree.isDir, Tree.walk, Entries.walk, DirectoryFilter.skips, sortByName,
    hallowed]

/-- The hashed files of a directory with two files, in the order of their names. -/
theorem files_twoFiles {f : DirectoryFilter} {base : Path} {name other : OsString} (hne : name ≠ other)
    (hle : NameLe name other) (hallowed : f.isAllowedFile (base ++ [name]) = true)
    (hallowed' : f.isAllowedFile (base ++ [other]) = true) (content content' : Bytes) :
    (twoFiles base name other hne content content').files f = [([name], content), ([other], content')] := by
  simp [Directory.files, twoFiles, hashedFiles, Tree.isDir, Tree.walk, Entries.walk, DirectoryFilter.skips, sortByName,
    hallowed, hallowed', hle]

/-- Whatever the filter, two names that it allows in one directory suffice: a file whose content spells
the other one is taken for both. -/
theorem not_faithful_of_two_names {f : DirectoryFilter} {base : Path} {name other : OsString} (hne : name ≠ other)
    (hle : NameLe name other) (hallowed : f.isAllowedFile (base ++ [name]) = true)
    (hallowed' : f.isAllowedFile (base ++ [other]) = true) (content content' : Bytes) :
    ¬ Faithful f (oneFile base name (content ++ fileText ([other], content')))
      (twoFiles base name other hne content content') := by
  intro hfaithful
  refine (faithful_iff f _ _).mp hfaithful ?_
  rw [files_oneFile hallowed, files_twoFiles hne hle hallowed hallowed', Ambiguous, if_neg]
  · refine .inr ⟨fileText ([other], content'), ?_, ?_⟩
    · simp [fileText]
    · exact spells_of_filesText (by simp)
  · intro h
    have hcontent : content ++ fileText ([other], content') = content := congrArg Prod.snd h
    exact fileText_ne_nil _ (List.append_right_eq_self.mp hcontent)

/-- A file `a` with the content `1b:2` is taken for a file `a` with the content `1` and a file `b` with
the content `2`. -/
theorem not_faithful_spelled :
    let d := oneFile [] (utf8Bytes "a") (utf8Bytes "1b:2")
    let d' := twoFiles [] (utf8Bytes "a") (utf8Bytes "b") (by decide) (utf8Bytes "1") (utf8Bytes "2")
    d.map packageFilter [utf8Bytes "b"] = none ∧ d'.map packageFilter [utf8Bytes "b"] = some (utf8Bytes "2") ∧
      d.text packageFilter = utf8Bytes "a:1b:2" ∧ d'.text packageFilter = utf8Bytes "a:1b:2" ∧
      ¬ Faithful packageFilter d d' := by
  intro d d'
  have htext : d.text packageFilter = utf8Bytes "a:1b:2" := by decide
  have htext' : d'.text packageFilter = utf8Bytes "a:1b:2" := by decide
  have hmap : d.map packageFilter [utf8Bytes "b"] = none := by decide
  have hmap' : d'.map packageFilter [utf8Bytes "b"] = some (utf8Bytes "2") := by decide
  refine ⟨hmap, hmap', htext, htext', fun hfaithful => ?_⟩
  refine hfaithful.differ (fun hsame => ?_) (htext.trans htext'.symm)
  rw [hsame, hmap'] at hmap
  exact absurd hmap nofun

end Forge.Fingerprint
