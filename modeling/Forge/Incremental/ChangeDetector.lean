import Forge.Cache.FileLevel
import Forge.Cli.Polyglot
import Forge.Common.Text

/-!
# Changes that matter for a build

The paths that changed are split into those that matter for a build and those that are ignored. A
path is ignored for the words in its text, for the start of its file name, for its extension or for
having none. The words are names of directories, but they are looked for in the whole text: a file or
a directory whose name only contains such a word is ignored like what is in a directory of that name,
a lock file among others.
-/

namespace Forge.Incremental.Changes

open Forge.Common Forge.Cache
open Forge.Cli (EcosystemType)

/-! ## Interleavings -/

section Interleavings

variable {α : Type*}

/-- A list that consists of two lists, each in its order. -/
inductive Interleaves : List α → List α → List α → Prop
  | nil : Interleaves [] [] []
  | left {x : α} {first second whole : List α} (rest : Interleaves first second whole) :
    Interleaves (x :: first) second (x :: whole)
  | right {x : α} {first second whole : List α} (rest : Interleaves first second whole) :
    Interleaves first (x :: second) (x :: whole)

/-- What a test accepts and what it does not accept are the whole list. -/
theorem interleaves_filter (test : α → Bool) (whole : List α) :
    Interleaves (whole.filter test) (whole.filter (!test ·)) whole := by
  induction whole with
  | nil => exact .nil
  | cons x whole ih =>
    cases htest : test x with
    | true =>
      rw [List.filter_cons_of_pos htest, List.filter_cons_of_neg (by simp [htest])]
      exact .left ih
    | false =>
      rw [List.filter_cons_of_neg (by simp [htest]), List.filter_cons_of_pos (by simp [htest])]
      exact .right ih

end Interleavings

/-! ## Paths -/

/-- The last component of a path, if it is a name. -/
def fileName (path : PathBuf) : Option Bytes :=
  match (pathComponents path).getLast? with
  | some (.normal name) => some name
  | _ => none

/-- The extension of a file name. A point at the start of a name does not count. -/
def extension (path : PathBuf) : Option Bytes :=
  (fileName path).bind fun name =>
    match rsplitOnce 46 name with
    | some (stem, extension) => if stem = [] then none else some extension
    | none => none

/-- The directories of a path. -/
def directories (path : PathBuf) : List PathComponent :=
  if (fileName path).isSome then (pathComponents path).dropLast else pathComponents path

/-! ## What matters -/

/-- Strings in lower case. -/
structure LowerCase where
  toLowercase : String → String
  ascii : ∀ s : String, (∀ c ∈ s.toList, c.toNat < 128) → toLowercase s = String.ofList (s.toList.map Char.toLower)

/-- The words for which a path is ignored. -/
def excludedWords : List String :=
  [".git", ".github", ".gitlab", ".vscode", ".idea", "target", "node_modules", ".venv", "__pycache__", "dist", "build"]

/-- Whether the text of a path has an excluded word in it. -/
def containsExcluded (path : PathBuf) : Bool :=
  excludedWords.any fun word => utf8Bytes word <:+: toStringLossy path

/-- The starts of file names that do not matter. -/
def excludedStarts : List String :=
  [".gitignore", ".gitattributes", ".editorconfig", ".prettier", ".eslint", "license", "contributing", "changelog"]

/-- The extensions that do not matter. -/
def excludedExtensions : List String :=
  ["md", "markdown", "txt", "rst", "png", "jpg", "jpeg", "gif", "svg", "ico"]

/-- The file names without an extension that matter. -/
def relevantNames : List String := ["dockerfile", "makefile", "gemfile", "rakefile"]

/-- Whether the file name matters by its start, its extension or for having none. -/
def fileNameRelevant (L : LowerCase) (path : PathBuf) : Bool :=
  let fileName := L.toLowercase (((fileName path).bind fromUtf8).getD "")
  if excludedStarts.any fun start => start.toList.isPrefixOf fileName.toList then false
  else match (extension path).bind fromUtf8 with
    | some ext => L.toLowercase ext ∉ excludedExtensions
    | none => fileName ∈ relevantNames

/-- Whether a path matters for a build. -/
def isBuildRelevantFile (L : LowerCase) (path : PathBuf) : Bool :=
  if containsExcluded path then false else fileNameRelevant L path

/-! ## Analysing -/

/-- What changes mean for a build. The ecosystems are in the order of a hash set, which is left out. -/
structure ChangeImpact where
  totalChangedFiles : ℕ
  meaningfulChanges : List PathBuf
  ignoredFiles : List PathBuf
  affectedEcosystems : Finset EcosystemType
  requiresFullRebuild : Bool
  deriving DecidableEq

/-- The names of lock files. -/
def lockNames : List String :=
  ["Cargo.lock", "pnpm-lock.yaml", "yarn.lock", "package-lock.json", "go.sum", "poetry.lock"]

/-- Whether a path has the name of a lock file. -/
def hasLockName (path : PathBuf) : Bool := ((fileName path).bind fromUtf8).any (· ∈ lockNames)

/-- The ecosystem of an extension. -/
def ecosystemOf (ext : String) : Option EcosystemType :=
  if ext = "rs" then some .rust
  else if ext ∈ ["ts", "tsx", "js", "jsx", "json"] then some .typeScript
  else if ext = "go" then some .go
  else if ext = "py" then some .python
  else if ext ∈ ["java", "kt", "kts"] then some .java
  else if ext ∈ ["cs", "fs"] then some .dotNet
  else if ext ∈ ["c", "cpp", "cc", "h", "hpp"] then some .cpp
  else none

/-- Analyse a path after others. -/
def analyzeChange (L : LowerCase) (impact : ChangeImpact) (path : PathBuf) : ChangeImpact :=
  if isBuildRelevantFile L path then
    { impact with
      meaningfulChanges := impact.meaningfulChanges ++ [path]
      requiresFullRebuild := if hasLockName path then true else impact.requiresFullRebuild
      affectedEcosystems :=
        match ((extension path).bind fromUtf8).bind fun ext => ecosystemOf (L.toLowercase ext) with
        | some ecosystem => insert ecosystem impact.affectedEcosystems
        | none => impact.affectedEcosystems }
  else { impact with ignoredFiles := impact.ignoredFiles ++ [path] }

/-- Analyse the paths that changed. -/
def analyzeChanges (L : LowerCase) (changedPaths : List PathBuf) : ChangeImpact :=
  changedPaths.foldl (analyzeChange L) ⟨changedPaths.length, [], [], ∅, false⟩

/-- The analysis of a path after others puts it at the end of its part. -/
theorem foldl_analyzeChange (L : LowerCase) (paths : List PathBuf) (impact : ChangeImpact) :
    (paths.foldl (analyzeChange L) impact).meaningfulChanges =
        impact.meaningfulChanges ++ paths.filter (isBuildRelevantFile L) ∧
      (paths.foldl (analyzeChange L) impact).ignoredFiles =
        impact.ignoredFiles ++ paths.filter (!isBuildRelevantFile L ·) ∧
      (paths.foldl (analyzeChange L) impact).requiresFullRebuild =
        (impact.requiresFullRebuild || paths.any fun path => isBuildRelevantFile L path && hasLockName path) := by
  induction paths generalizing impact with
  | nil => simp
  | cons path paths ih =>
    obtain ⟨hmeaningful, hignored, hrebuild⟩ := ih (analyzeChange L impact path)
    rw [List.foldl_cons, hmeaningful, hignored, hrebuild, List.any_cons, analyzeChange]
    cases hrelevant : isBuildRelevantFile L path with
    | true =>
      refine ⟨?_, ?_, ?_⟩
      · rw [if_pos rfl, List.filter_cons_of_pos hrelevant, List.append_assoc, List.singleton_append]
      · rw [if_pos rfl, List.filter_cons_of_neg (by simp [hrelevant])]
      · cases hlock : hasLockName path <;> simp
    | false =>
      refine ⟨?_, ?_, ?_⟩
      · rw [if_neg Bool.false_ne_true, List.filter_cons_of_neg (by simp [hrelevant])]
      · rw [if_neg Bool.false_ne_true, List.filter_cons_of_pos (by simp [hrelevant]), List.append_assoc,
          List.singleton_append]
      · simp

/-! ## What is meant to be ignored -/

/-- Whether a whole directory name of a path is an excluded word. -/
def InExcludedDir (path : PathBuf) : Prop :=
  ∃ word ∈ excludedWords, .normal (utf8Bytes word) ∈ directories path

instance (path : PathBuf) : Decidable (InExcludedDir path) :=
  inferInstanceAs (Decidable (∃ word ∈ excludedWords, _))

/-- An impact splits the paths, ignores what is meant to be ignored and nothing else, and finds the
lock files that changed. -/
structure IgnoresMeant (L : LowerCase) (changedPaths : List PathBuf) (impact : ChangeImpact) : Prop where
  split : Interleaves impact.meaningfulChanges impact.ignoredFiles changedPaths
  ignored : ∀ path ∈ impact.ignoredFiles, InExcludedDir path ∨ fileNameRelevant L path = false
  rebuild : impact.requiresFullRebuild = true ↔ ∃ path ∈ changedPaths, ¬InExcludedDir path ∧ hasLockName path = true

/-- The name of a component is in the path. -/
theorem isInfix_of_mem_pathComponents {path : PathBuf} {name : Bytes} (h : .normal name ∈ pathComponents path) :
    name <:+: path := by
  rw [pathComponents, List.mem_append] at h
  obtain hstart | hpiece := h
  · split at hstart
    · exact absurd (List.mem_singleton.mp hstart) nofun
    · split at hstart
      · exact absurd (List.mem_singleton.mp hstart) nofun
      · exact absurd hstart List.not_mem_nil
  · obtain ⟨piece, hmem, hname⟩ := List.mem_filterMap.mp hpiece
    rw [PathComponent.ofPiece] at hname
    split_ifs at hname
    · exact absurd (Option.some.inj hname) nofun
    · obtain rfl := PathComponent.normal.inj (Option.some.inj hname)
      exact isInfix_of_mem_splitOn hmem

/-- An excluded directory has its word in the text of the path. -/
theorem containsExcluded_of_inExcludedDir {path : PathBuf} (h : InExcludedDir path) : containsExcluded path = true := by
  obtain ⟨word, hword, hdir⟩ := h
  have hascii : ∀ word ∈ excludedWords, ((utf8Bytes word).all fun byte => byte < 0x80) = true := by decide
  have hmem : .normal (utf8Bytes word) ∈ pathComponents path := by
    rw [directories] at hdir
    split at hdir
    · exact List.mem_of_mem_dropLast hdir
    · exact hdir
  exact List.any_eq_true.mpr ⟨word, hword, decide_eq_true
    (infix_toStringLossy (fun byte hbyte => of_decide_eq_true (List.all_eq_true.mp (hascii word hword) byte hbyte))
      (isInfix_of_mem_pathComponents hmem))⟩

/-- The names of lock files have extensions that matter, and do not start like what does not matter. -/
theorem lockNames_relevant : ∀ name ∈ lockNames, (name.toList.all fun c => c.toNat < 128) = true ∧
    (excludedStarts.any fun start => start.toList.isPrefixOf (name.toList.map Char.toLower)) = false ∧
    ∃ ext ∈ ["lock", "yaml", "json", "sum"],
      ((rsplitOnce 46 (utf8Bytes name)).any fun split => split.1 ≠ [] ∧ split.2 = utf8Bytes ext) = true := by
  decide

/-- The name of a lock file matters. -/
theorem fileNameRelevant_of_hasLockName (L : LowerCase) {path : PathBuf} (h : hasLockName path = true) :
    fileNameRelevant L path = true := by
  rw [hasLockName] at h
  obtain ⟨name, htext, hlock⟩ := Option.any_eq_true _ _ |>.mp h
  obtain ⟨bytes, hfile, hbytes⟩ := Option.bind_eq_some_iff.mp htext
  obtain rfl := fromUtf8_eq_some_iff.mp hbytes
  obtain ⟨hascii, hstart, ext, hext, hsplit⟩ := lockNames_relevant name (of_decide_eq_true hlock)
  obtain ⟨⟨stem, _⟩, hsplit, hparts⟩ := Option.any_eq_true _ _ |>.mp hsplit
  obtain ⟨hstem, rfl⟩ := of_decide_eq_true hparts
  have hextension : extension path = some (utf8Bytes ext) := by
    rw [extension, hfile, Option.bind_some, hsplit]
    exact if_neg hstem
  have hlower : ∀ ext ∈ ["lock", "yaml", "json", "sum"], (ext.toList.all fun c => c.toNat < 128) = true ∧
      String.ofList (ext.toList.map Char.toLower) ∉ excludedExtensions := by decide
  obtain ⟨hextAscii, hrelevant⟩ := hlower ext hext
  simp only [List.all_eq_true, decide_eq_true_eq] at hascii hextAscii
  rw [fileNameRelevant, htext, hextension, Option.getD_some, L.ascii name hascii, String.toList_ofList, hstart,
    if_neg Bool.false_ne_true, Option.bind_some, fromUtf8_utf8Bytes]
  exact decide_eq_true (L.ascii ext hextAscii ▸ hrelevant)

/-- A path matters if nothing excludes it. -/
theorem isBuildRelevantFile_iff {L : LowerCase} {path : PathBuf} :
    isBuildRelevantFile L path = true ↔ containsExcluded path = false ∧ fileNameRelevant L path = true := by
  rw [isBuildRelevantFile]
  cases containsExcluded path <;> simp

/-- Of the paths that changed, only what is meant to be ignored is ignored, and a rebuild is required
for exactly the lock files, if and only if no path has an excluded word in its text but outside the
names of its directories, unless its file name does not matter anyway. -/
theorem ignoresMeant_iff (L : LowerCase) (changedPaths : List PathBuf) :
    IgnoresMeant L changedPaths (analyzeChanges L changedPaths) ↔
      ∀ path ∈ changedPaths, containsExcluded path = true → InExcludedDir path ∨ fileNameRelevant L path = false := by
  obtain ⟨hmeaningful, hignored, hrebuild⟩ := foldl_analyzeChange L changedPaths ⟨changedPaths.length, [], [], ∅, false⟩
  rw [List.nil_append] at hmeaningful hignored
  rw [Bool.false_or] at hrebuild
  constructor
  · intro h path hpath hcontains
    refine h.ignored path ?_
    rw [analyzeChanges, hignored]
    refine List.mem_filter.mpr ⟨hpath, ?_⟩
    rw [isBuildRelevantFile, if_pos hcontains, Bool.not_false]
  · intro h
    refine ⟨?_, fun path hpath => ?_, ?_⟩
    · rw [analyzeChanges, hmeaningful, hignored]
      exact interleaves_filter _ _
    · rw [analyzeChanges, hignored] at hpath
      obtain ⟨hmem, hrelevant⟩ := List.mem_filter.mp hpath
      cases hcontains : containsExcluded path with
      | true => exact h path hmem hcontains
      | false =>
        rw [isBuildRelevantFile, hcontains, if_neg Bool.false_ne_true, Bool.not_eq_true'] at hrelevant
        exact .inr hrelevant
    · rw [analyzeChanges, hrebuild, List.any_eq_true]
      refine exists_congr fun path => and_congr_right fun hpath => ?_
      rw [Bool.and_eq_true, isBuildRelevantFile_iff]
      refine and_congr_left fun hlock => ?_
      have hname := fileNameRelevant_of_hasLockName L hlock
      constructor
      · rintro ⟨hcontains, -⟩ hdir
        exact Bool.false_ne_true (hcontains.symm.trans (containsExcluded_of_inExcludedDir hdir))
      · intro hdir
        refine ⟨Bool.eq_false_iff.mpr fun hcontains => ?_, hname⟩
        obtain hin | hexcluded := h path hpath hcontains
        · exact hdir hin
        · exact Bool.false_ne_true (hexcluded.symm.trans hname)

/-! ## A build script -/

/-- Lower case for ASCII letters only. -/
def asciiLowerCase : LowerCase where
  toLowercase := fun s => String.ofList (s.toList.map Char.toLower)
  ascii := fun _ _ => rfl

/-- A build script in the sources is ignored, for `build` in its name. -/
theorem not_ignoresMeant_buildScript :
    ¬IgnoresMeant asciiLowerCase [utf8Bytes "src/build.rs"]
      (analyzeChanges asciiLowerCase [utf8Bytes "src/build.rs"]) := by
  intro h
  have hignored : utf8Bytes "src/build.rs" ∈ (analyzeChanges asciiLowerCase [utf8Bytes "src/build.rs"]).ignoredFiles := by
    decide
  obtain hdir | hname := h.ignored _ hignored
  · exact absurd hdir (by decide)
  · exact absurd hname (by decide)

end Forge.Incremental.Changes
