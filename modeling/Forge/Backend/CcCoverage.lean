import Forge.Backend.CcFingerprint
import Forge.Common.Concatenations
import Forge.Fingerprint.Combine

/-!
# What the fingerprint of a C or C++ source covers

With a dependency file, the source and the files that it lists are hashed one behind the other.
A relative name is looked up next to the source, although the compiler runs in the directory of
the project. What is missing is passed over, and so are all files when the source is missing.
Two states of the file system can thus differ in a listed file and have the same fingerprint.
They do so exactly when the contents that are read run together.
-/

namespace Forge.Backend.Cc

open Forge.Common Forge.Fingerprint

/-- A compilation with a dependency file, and the directory in which its command runs. -/
structure Compilation where
  projectDir : String
  source : String
  includes : List String
  flags : List String
  compilerVersion : String
  depfile : String

/-- What is hashed of what there is at a path, if it is passed over when it cannot be read. -/
def bytesAt (files : FileSystem) (path : String) : Bytes :=
  match files.lookup (components path) with
  | some (.file bytes) => bytes
  | _ => []

/-- The size of a file. -/
def Entry.size : Entry → Option ℕ
  | .file bytes => some bytes.length
  | .unreadable => none

/-- Files of the same sizes are at paths in two states of a file system. -/
def SameSizes (files files' : FileSystem) (paths : List String) : Prop :=
  ∀ path ∈ paths, (files'.lookup (components path)).map Entry.size = (files.lookup (components path)).map Entry.size

/-- The same is at paths in two states of a file system. -/
def SameAt (files files' : FileSystem) (paths : List String) : Prop :=
  ∀ path ∈ paths, files'.lookup (components path) = files.lookup (components path)

namespace Compilation

variable (hash : Bytes → String) (c : Compilation) (files files' : FileSystem) (deps : List String)

/-- The fingerprint of the source. -/
def fingerprint : Except FingerprintError String :=
  computeSourceFingerprint hash files c.source c.includes c.flags c.compilerVersion (some c.depfile)

/-- The source and the files that are listed for it, from the directory in which the command runs. -/
def needed : List String := c.source :: deps.map (joinPath c.projectDir)

/-- A fingerprint that is found in two states tells that the source and the listed files are the same. -/
def Covered : Prop :=
  ∀ fingerprint, c.fingerprint hash files = .ok fingerprint → c.fingerprint hash files' = .ok fingerprint →
    SameAt files files' (c.needed deps)

/-- The files that are read: the source and the others, which are looked up next to it. -/
def pathsRead : List String :=
  c.source :: (deps.map (dependencyPath c.source)).filter fun dep => components dep ≠ components c.source

/-- The contents of the files that are read. Without the source, nothing is read of any. -/
def contentsRead : List Bytes :=
  (c.pathsRead deps).map fun path => if pathExists files c.source then bytesAt files path else []

/-- The source is missing, or it is a file. -/
def Readable : Prop := files.lookup (components c.source) ≠ some .unreadable

/-- Whether the source can be read is decidable. -/
instance : Decidable (c.Readable files) :=
  inferInstanceAs (Decidable (files.lookup (components c.source) ≠ some .unreadable))

/-- The dependencies are hashed in their order, without the source. -/
theorem flatMap_dependencyText :
    deps.flatMap (dependencyText files c.source) =
      (((deps.map (dependencyPath c.source)).filter fun dep => components dep ≠ components c.source).map
        (bytesAt files)).flatten := by
  induction deps with
  | nil => rfl
  | cons dep deps ih =>
    rw [List.flatMap_cons, ih, List.map_cons, List.filter_cons, dependencyText]
    by_cases hsource : components (dependencyPath c.source dep) = components c.source
    · simp [hsource]
    · simp [hsource]
      rfl

variable {c files deps} in
/-- What is hashed is the command and the contents that are read. -/
theorem sourceText_eq (hdeps : readDepfile files c.depfile = some deps) (hreadable : c.Readable files) :
    sourceText files c.source c.includes c.flags c.compilerVersion (some c.depfile) =
      .ok (commandText c.compilerVersion c.flags ++ (c.contentsRead files deps).flatten) := by
  unfold sourceText contentsRead pathsRead
  by_cases hexists : pathExists files c.source = true
  · obtain ⟨entry, hentry⟩ := Option.isSome_iff_exists.mp hexists
    cases entry with
    | unreadable => exact absurd hentry hreadable
    | file bytes =>
      have hread : bytesAt files c.source = bytes := by rw [bytesAt, hentry]
      simp only [if_pos hexists, hashFileInto, hentry, Option.bind_some, hdeps, List.map_cons, List.flatten_cons,
        flatMap_dependencyText, hread, List.append_assoc]
  · simp only [if_neg hexists, List.map_const', List.flatten_replicate_nil, List.append_nil]

/-- Without a source that can be read there is no fingerprint. -/
theorem fingerprint_unreadable {c : Compilation} {files : FileSystem} (h : ¬ c.Readable files) :
    c.fingerprint hash files = .error .io := by
  have hentry := not_not.mp h
  have hexists : pathExists files c.source = true := by rw [pathExists, hentry]; rfl
  simp only [fingerprint, computeSourceFingerprint, sourceText, if_pos hexists, hashFileInto, hentry, Except.map]

section Covered

variable {hash} {c : Compilation} {files files' : FileSystem} {deps : List String}

/-- The dependency file lists the same in both states if it is the same. -/
theorem readDepfile_congr {depfile : String} (hdeps : readDepfile files depfile = some deps)
    (hdepfile : files'.lookup (components depfile) = files.lookup (components depfile)) :
    readDepfile files' depfile = some deps := by
  rw [← hdeps, readDepfile, readDepfile, hdepfile]

/-- The fingerprints of two states are the same exactly when the contents that are read run together. -/
theorem fingerprint_eq_iff (hhash : Function.Injective hash) (hdeps : readDepfile files c.depfile = some deps)
    (hdepfile : files'.lookup (components c.depfile) = files.lookup (components c.depfile))
    (hreadable : c.Readable files) (hreadable' : c.Readable files') :
    c.fingerprint hash files = c.fingerprint hash files' ↔
      RunTogether (c.contentsRead files deps) (c.contentsRead files' deps) := by
  have hlength : (c.contentsRead files deps).length = (c.contentsRead files' deps).length := by
    rw [contentsRead, contentsRead, List.length_map, List.length_map]
  rw [fingerprint, fingerprint, computeSourceFingerprint, computeSourceFingerprint, sourceText_eq hdeps hreadable,
    sourceText_eq (readDepfile_congr hdeps hdepfile) hreadable', Except.map, Except.map, Except.ok.injEq,
    hhash.eq_iff, List.append_cancel_left_eq, flatten_eq_iff_runTogether hlength]

/-- A source that can be read has a fingerprint. -/
theorem exists_fingerprint (hdeps : readDepfile files c.depfile = some deps) (hreadable : c.Readable files) :
    ∃ fingerprint, c.fingerprint hash files = .ok fingerprint := by
  rw [fingerprint, computeSourceFingerprint, sourceText_eq hdeps hreadable]
  exact ⟨_, rfl⟩

/-- A fingerprint covers the source and the listed files exactly when there is none in one of the
states, or these files are the same, or the contents that are read do not run together. -/
theorem covered_iff_separate (hhash : Function.Injective hash) (hdeps : readDepfile files c.depfile = some deps)
    (hdepfile : files'.lookup (components c.depfile) = files.lookup (components c.depfile)) :
    c.Covered hash files files' deps ↔
      ¬ c.Readable files ∨ ¬ c.Readable files' ∨ SameAt files files' (c.needed deps) ∨
        ¬ RunTogether (c.contentsRead files deps) (c.contentsRead files' deps) := by
  by_cases hreadable : c.Readable files
  · by_cases hreadable' : c.Readable files'
    · rw [← fingerprint_eq_iff hhash hdeps hdepfile hreadable hreadable', or_iff_right (not_not.mpr hreadable),
        or_iff_right (not_not.mpr hreadable')]
      constructor
      · intro hcovered
        by_cases hsame : c.fingerprint hash files = c.fingerprint hash files'
        · obtain ⟨fingerprint, hfingerprint⟩ := exists_fingerprint hdeps hreadable
          exact .inl (hcovered fingerprint hfingerprint (hsame ▸ hfingerprint))
        · exact .inr hsame
      · rintro (hsame | hdiffer) fingerprint h h'
        · exact hsame
        · exact absurd (h.trans h'.symm) hdiffer
    · refine iff_of_true (fun fingerprint _ h => ?_) (.inr (.inl hreadable'))
      rw [fingerprint_unreadable hash hreadable'] at h
      cases h
  · refine iff_of_true (fun fingerprint h _ => ?_) (.inl hreadable)
    rw [fingerprint_unreadable hash hreadable] at h
    cases h

/-- There is the same at a path if it has the same size and the same bytes are read of it. -/
theorem lookup_eq_of_size {path : String}
    (hsize : (files'.lookup (components path)).map Entry.size = (files.lookup (components path)).map Entry.size)
    (hbytes : bytesAt files path = bytesAt files' path) :
    files'.lookup (components path) = files.lookup (components path) := by
  unfold bytesAt at hbytes
  rcases hentry : files.lookup (components path) with _ | (bytes | _) <;>
    rcases hentry' : files'.lookup (components path) with _ | (bytes' | _) <;>
    simp_all [Entry.size]

/-- A fingerprint covers files that only change their contents, if the relative names that are
listed lead to the same files from the directory of the source and from that of the project. -/
theorem covered_of_sameSizes (hhash : Function.Injective hash) (hdeps : readDepfile files c.depfile = some deps)
    (hdepfile : files'.lookup (components c.depfile) = files.lookup (components c.depfile))
    (hsource : pathExists files c.source = true) (hsizes : SameSizes files files' (c.pathsRead deps))
    (hnames : ∀ dep ∈ deps, components (joinPath c.projectDir dep) = components (dependencyPath c.source dep)) :
    c.Covered hash files files' deps := by
  intro fingerprint h h'
  have hreadable : c.Readable files := by
    by_contra hunreadable
    rw [fingerprint_unreadable hash hunreadable] at h
    cases h
  have hreadable' : c.Readable files' := by
    by_contra hunreadable
    rw [fingerprint_unreadable hash hunreadable] at h'
    cases h'
  have hsource' : pathExists files' c.source = true := by
    rw [pathExists, ← Option.isSome_map (f := Entry.size), hsizes _ List.mem_cons_self, Option.isSome_map]
    exact hsource
  have htogether := (fingerprint_eq_iff hhash hdeps hdepfile hreadable hreadable').mp (h.trans h'.symm)
  -- The words of the two states have the same lengths, so none of them can go on in the next one.
  have hread : ∀ path ∈ c.pathsRead deps, bytesAt files path = bytesAt files' path := by
    refine List.map_inj_left.mp ?_
    have hcontents := htogether.eq_of_length ?_
    · simpa only [contentsRead, if_pos hsource, if_pos hsource'] using hcontents
    · simp only [contentsRead, if_pos hsource, if_pos hsource', List.map_map]
      refine List.map_congr_left fun path hpath => ?_
      have hsize := hsizes path hpath
      rw [Function.comp_apply, Function.comp_apply, bytesAt, bytesAt]
      rcases hentry : files.lookup (components path) with _ | (bytes | _) <;>
        rcases hentry' : files'.lookup (components path) with _ | (bytes' | _) <;>
        simp_all [Entry.size]
  have hlookup (path : String) (hpath : path ∈ c.pathsRead deps) :=
    lookup_eq_of_size (hsizes path hpath) (hread path hpath)
  refine List.forall_mem_cons.mpr ⟨hlookup _ List.mem_cons_self, List.forall_mem_map.mpr fun dep hdep => ?_⟩
  rw [hnames dep hdep]
  by_cases hself : components (dependencyPath c.source dep) = components c.source
  · rw [hself]
    exact hlookup _ List.mem_cons_self
  · refine hlookup _ (List.mem_cons_of_mem _ (List.mem_filter.mpr ⟨List.mem_map_of_mem hdep, ?_⟩))
    exact decide_eq_true hself

/-- No dependency file is such that the fingerprints cover what it lists in all states: an empty source
is taken for a missing one. -/
theorem exists_not_covered {bytes : Bytes} (hdeps : (fromUtf8 bytes).bind parseDepfile = some deps)
    (hapart : ∀ path ∈ c.pathsRead deps, components path ≠ components c.depfile) :
    ∃ files files' : FileSystem, readDepfile files c.depfile = some deps ∧
      files'.lookup (components c.depfile) = files.lookup (components c.depfile) ∧
      ¬ c.Covered hash files files' deps := by
  have hne : components c.source ≠ components c.depfile := hapart _ List.mem_cons_self
  have hempty (path : List Component) (h : path ≠ components c.depfile) :
      (AList.insert (components c.depfile) (.file bytes) ∅ : FileSystem).lookup path = none := by
    rw [AList.lookup_insert_ne h, AList.lookup_empty]
  let files : FileSystem := AList.insert (components c.depfile) (.file bytes) ∅
  let files' : FileSystem := AList.insert (components c.source) (.file []) files
  have hdepfile : files'.lookup (components c.depfile) = files.lookup (components c.depfile) :=
    AList.lookup_insert_ne hne.symm
  have hlisted : readDepfile files c.depfile = some deps := by
    rw [readDepfile, AList.lookup_insert]
    exact hdeps
  have hsource : files.lookup (components c.source) = none := hempty _ hne
  have hsource' : files'.lookup (components c.source) = some (.file []) := AList.lookup_insert _
  have hreadable : c.Readable files := by rw [Readable, hsource]; nofun
  have hreadable' : c.Readable files' := by rw [Readable, hsource']; nofun
  -- Nothing is read in either state.
  have hcontents : c.contentsRead files deps = c.contentsRead files' deps := by
    refine List.map_congr_left fun path hpath => ?_
    have hnone : bytesAt files' path = [] := by
      unfold bytesAt
      by_cases hself : components path = components c.source
      · rw [hself, hsource']
      · rw [AList.lookup_insert_ne hself, hempty _ (hapart path hpath)]
    rw [hnone, ite_self, pathExists, hsource]
    rfl
  refine ⟨files, files', hlisted, hdepfile, fun hcovered => ?_⟩
  obtain ⟨fingerprint, hfingerprint⟩ := exists_fingerprint hlisted hreadable
  have hsame : c.fingerprint hash files' = c.fingerprint hash files := by
    rw [Compilation.fingerprint, Compilation.fingerprint, computeSourceFingerprint, computeSourceFingerprint,
      sourceText_eq hlisted hreadable, sourceText_eq (readDepfile_congr hlisted hdepfile) hreadable', hcontents]
  have hcover := hcovered fingerprint hfingerprint (hsame.trans hfingerprint) _ List.mem_cons_self
  rw [hsource, hsource'] at hcover
  cases hcover

end Covered

/-! ## Two headers -/

/-- The values of BLAKE3 for what is hashed in the sample. -/
def coverageHashes : JsonCodec.Table Bytes where
  known :=
    [(utf8Bytes "gcc 13.2.0\nflags:\n#include \"a.h\"\n#include \"b.h\"\nint a;\nint b;\n",
        "f09034136ec2c0568c15443a38a80d87fe8e292b677140d84169f994d0156c15"),
      (utf8Bytes "gcc 13.2.0\nflags:\n#include \"a.h\"\n#include \"b.h\"\nint c;\nint b;\n",
        "2f3a5ac005b995c8e87e19304a83d124b886073a1c28d83db07a339eff8d5aa3")]
  texts_nodup := by decide +kernel
  nonzero := by decide +kernel

/-- The compilation of a source with two headers. -/
def twoHeaders : Compilation where
  projectDir := "/p"
  source := "/p/main.c"
  includes := []
  flags := []
  compilerVersion := "gcc 13.2.0"
  depfile := "/p/build/objs/main.d"

/-- The files of the compilation, with the texts of the headers. -/
def headerFiles (a b : String) : FileSystem :=
  (((AList.insert (components "/p/build/objs/main.d")
    (.file (utf8Bytes "/p/build/objs/main.o: /p/main.c /p/a.h /p/b.h\n")) ∅).insert
      (components "/p/main.c") (.file (utf8Bytes "#include \"a.h\"\n#include \"b.h\"\n"))).insert
        (components "/p/a.h") (.file (utf8Bytes a))).insert (components "/p/b.h") (.file (utf8Bytes b))

/-- The dependency file of the sample does not depend on what the headers say. -/
theorem lookup_depfile (a b : String) : (headerFiles a b).lookup (components twoHeaders.depfile) =
    some (.file (utf8Bytes "/p/build/objs/main.o: /p/main.c /p/a.h /p/b.h\n")) := by
  rw [headerFiles, AList.lookup_insert_ne (by decide), AList.lookup_insert_ne (by decide),
    AList.lookup_insert_ne (by decide)]
  exact AList.lookup_insert _

/-- What the dependency file of the sample lists. -/
theorem readDepfile_headerFiles (a b : String) :
    readDepfile (headerFiles a b) twoHeaders.depfile = some ["/p/main.c", "/p/a.h", "/p/b.h"] := by
  simp only [readDepfile, lookup_depfile, fromUtf8_utf8Bytes, Option.bind_some]
  decide

/-- An edit of a header is seen. -/
theorem covered_edited :
    twoHeaders.Covered (hashOf coverageHashes) (headerFiles "int a;\n" "int b;\n") (headerFiles "int c;\n" "int b;\n")
      ["/p/main.c", "/p/a.h", "/p/b.h"] := by
  refine (covered_iff_separate (hashOf_injective coverageHashes) (readDepfile_headerFiles _ _)
    ((lookup_depfile _ _).trans (lookup_depfile _ _).symm)).mpr (.inr (.inr (.inr fun htogether => ?_)))
  have htext := (flatten_eq_iff_runTogether (by decide +kernel)).mpr htogether
  revert htext
  decide +kernel

/-- A declaration that is moved from the second header to the end of the first one is not seen. -/
theorem not_covered_moved :
    readDepfile (headerFiles "int a;\n" "int b;\n") twoHeaders.depfile = some ["/p/main.c", "/p/a.h", "/p/b.h"] ∧
      (headerFiles "int a;\nint b;\n" "").lookup (components twoHeaders.depfile) =
        (headerFiles "int a;\n" "int b;\n").lookup (components twoHeaders.depfile) ∧
      ¬ twoHeaders.Covered (hashOf coverageHashes) (headerFiles "int a;\n" "int b;\n")
        (headerFiles "int a;\nint b;\n" "") ["/p/main.c", "/p/a.h", "/p/b.h"] := by
  refine ⟨readDepfile_headerFiles _ _, (lookup_depfile _ _).trans (lookup_depfile _ _).symm, fun hcovered => ?_⟩
  have htext (a b : String) (hreadable : twoHeaders.Readable (headerFiles a b)) :
      twoHeaders.fingerprint (hashOf coverageHashes) (headerFiles a b) = .ok (hashOf coverageHashes
        (commandText "gcc 13.2.0" [] ++
          (twoHeaders.contentsRead (headerFiles a b) ["/p/main.c", "/p/a.h", "/p/b.h"]).flatten)) := by
    rw [fingerprint, computeSourceFingerprint, sourceText_eq (readDepfile_headerFiles a b) hreadable]
    rfl
  have hcontents : (twoHeaders.contentsRead (headerFiles "int a;\n" "int b;\n") ["/p/main.c", "/p/a.h", "/p/b.h"]).flatten =
      (twoHeaders.contentsRead (headerFiles "int a;\nint b;\n" "") ["/p/main.c", "/p/a.h", "/p/b.h"]).flatten := by
    decide +kernel
  have hfirst := htext "int a;\n" "int b;\n" (by decide +kernel)
  have hsecond := htext "int a;\nint b;\n" "" (by decide +kernel)
  rw [← hcontents] at hsecond
  exact absurd (hcovered _ hfirst hsecond) (by unfold SameAt; decide +kernel)

end Compilation

end Forge.Backend.Cc
