import Forge.Common.JsonCodec
import Forge.Fingerprint.Combine
import Forge.Fingerprint.DirectoryWalk
import Mathlib.Data.Finmap
import Mathlib.Logic.Equiv.Multiset

/-!
# Attestations of build artifacts

An attestation lists the artifacts of a build by their file names with the hashes of their
contents, the sources likewise, and the hash of all these hashes. To verify it, the listed names
are looked up in a directory and the contents are hashed again. Where an artifact was below the
directory is not recorded, and the hash of the hashes is not looked at.
-/

namespace Forge.Cli.Attestation

open Forge.Common Forge.Fingerprint

/-! ## Attestations -/

/-- A map from strings to strings. -/
abbrev StringMap := Finmap fun _ : String => String

/-- The hash of a content, in hexadecimal digits. -/
structure SlsaDigest where
  blake3 : String
  deriving DecidableEq

/-- A file by its name and the hash of its content. -/
structure SlsaSubject where
  name : String
  digest : SlsaDigest
  deriving DecidableEq

/-- How a build was invoked. -/
structure SlsaInvocation where
  configSource : StringMap
  parameters : StringMap
  deriving DecidableEq

/-- What is said about a build. -/
structure SlsaPredicate where
  builder : StringMap
  buildType : String
  invocation : SlsaInvocation
  materials : List SlsaSubject
  deriving DecidableEq

/-- An attestation of the artifacts of a build. -/
structure SlsaAttestation where
  schemaType : String
  predicateType : String
  subject : List SlsaSubject
  predicate : SlsaPredicate
  merkleRoot : String
  deriving DecidableEq

/-! ## Generating -/

/-- The hash of the hashes of the artifacts and the sources. -/
def merkleRoot (hash : Bytes → String) (subjects materials : List SlsaSubject) : String :=
  hash ((subjects ++ materials).flatMap fun subject => utf8Bytes subject.digest.blake3)

/-- The text of bytes, with replacements for what is no text. -/
def lossyText (bytes : Bytes) : String := (fromUtf8 (toStringLossy bytes)).getD ""

/-- The name under which an artifact is listed. -/
def artifactName (file : Path) : String := (file.getLast?.bind fromUtf8).getD "artifact"

/-- The artifact at a path, if a file is there. -/
def subjectOf (hash : Bytes → String) (fs : Tree) (file : Path) : Option SlsaSubject :=
  (isFile fs file).map fun content => ⟨artifactName file, ⟨hash content⟩⟩

/-- The files among the entries of a directory. -/
def sourceFiles (hash : Bytes → String) : Entries → List SlsaSubject
  | .nil => []
  | .cons name (.file content) entries => ⟨lossyText name, ⟨hash content⟩⟩ :: sourceFiles hash entries
  | .cons _ _ entries => sourceFiles hash entries

/-- The sources of a project, those directly in its directory of sources. -/
def materialsOf (hash : Bytes → String) (fs : Tree) (projectRoot : Path) : List SlsaSubject :=
  match fs.descend (projectRoot ++ [utf8Bytes "src"]) with
  | .dir entries => sourceFiles hash entries
  | _ => []

/-- The text of a path. -/
def display (path : Path) : String := lossyText (47 :: [47].intercalate path)

/-- Attest the artifacts of a build, some seconds after the epoch. -/
def generateAttestation (hash : Bytes → String) (fs : Tree) (projectRoot : Path) (outputFiles : List Path) (now : ℕ) :
    SlsaAttestation :=
  let subjects := outputFiles.filterMap (subjectOf hash fs)
  let materials := materialsOf hash fs projectRoot
  { schemaType := "https://in-toto.io/Statement/v1"
    predicateType := "https://slsa.dev/provenance/v1"
    subject := subjects
    predicate :=
      { builder :=
          ((∅ : StringMap).insert "id" "https://github.com/requla11/fish@v0.1.0").insert "timestamp" (toString now)
        buildType := "https://fish.build/slsa/v1"
        invocation :=
          { configSource := (∅ : StringMap).insert "uri" (display projectRoot)
            parameters := (∅ : StringMap).insert "slsa_level" "SLSA_BUILD_LEVEL_3" }
        materials := materials }
    merkleRoot := merkleRoot hash subjects materials }

/-- The file that an attestation is saved to, and what it holds then. -/
def saveAttestation (codec : JsonCodec SlsaAttestation) (projectRoot : Path) (attestation : SlsaAttestation) :
    Path × Bytes :=
  (projectRoot ++ [utf8Bytes ".fish", utf8Bytes "attestation.json"], codec.toVec attestation)

/-! ## Verifying -/

/-- Follow the pieces of a path. All but the last have to be directories, also in front of a point. -/
def walk (fs : Tree) : Path → List Bytes → Option Path
  | current, [] => some current
  | current, piece :: pieces =>
    match fs.descend current with
    | .dir entries =>
      if piece = [] ∨ piece = [46] then walk fs current pieces
      else if piece = [46, 46] then walk fs current.dropLast pieces
      else if piece ∈ entries.names then walk fs (current ++ [piece]) pieces
      else none
    | _ => none

/-- What the name of an artifact leads to from a directory, if there is anything. A name that starts
with a slash leads from the root. -/
def locate (fs : Tree) (artifactsDir : Path) (name : String) : Option Path :=
  walk fs (if (utf8Bytes name).head? = some 47 then [] else artifactsDir) ((utf8Bytes name).splitOn 47)

/-- Why an attestation is not verified. -/
inductive IoError where
  | unreadable
  | invalidData (message : String)
  deriving DecidableEq

/-- Verify the artifacts one after the other. -/
def verifySubjects (hash : Bytes → String) (fs : Tree) (artifactsDir : Path) : List SlsaSubject → Except IoError Bool
  | [] => .ok true
  | subj :: subjects =>
    match locate fs artifactsDir subj.name with
    | none => .ok false
    | some path =>
      match isFile fs path with
      | none => .error .unreadable
      | some bytes =>
        if hash bytes ≠ subj.digest.blake3 then .ok false else verifySubjects hash fs artifactsDir subjects

/-- Verify the attestation that a file holds. -/
def verifyAttestation (hash : Bytes → String) (codec : JsonCodec SlsaAttestation) (saved : Option Bytes) (fs : Tree)
    (artifactsDir : Path) : Except IoError Bool :=
  match saved with
  | none => .error .unreadable
  | some content =>
    match codec.tryFromSlice content with
    | .error message => .error (.invalidData message)
    | .ok attestation => verifySubjects hash fs artifactsDir attestation.subject

/-! ## What is verified -/

section Verifying

variable {hash : Bytes → String} {codec : JsonCodec SlsaAttestation} {fs : Tree} {artifactsDir : Path}

/-- Whether the name of an artifact leads to a file with the hash that is listed. -/
def Matches (hash : Bytes → String) (fs : Tree) (artifactsDir : Path) (subj : SlsaSubject) : Prop :=
  ∃ path content, locate fs artifactsDir subj.name = some path ∧ isFile fs path = some content ∧
    hash content = subj.digest.blake3

/-- Artifacts are verified if each of them matches. -/
theorem verifySubjects_iff (subjects : List SlsaSubject) :
    verifySubjects hash fs artifactsDir subjects = .ok true ↔ ∀ subj ∈ subjects, Matches hash fs artifactsDir subj := by
  induction subjects with
  | nil => simp [verifySubjects]
  | cons subj subjects ih =>
    rw [List.forall_mem_cons, ← ih, verifySubjects, Matches]
    cases locate fs artifactsDir subj.name with
    | none => simp
    | some path =>
      cases hfile : isFile fs path with
      | none => simp [hfile]
      | some bytes =>
        by_cases hhash : hash bytes = subj.digest.blake3
        · simp [hfile, hhash]
        · simp [hfile, hhash]

/-- A saved attestation is verified if each of its artifacts matches. -/
theorem verifyAttestation_iff (projectRoot : Path) (attestation : SlsaAttestation) :
    verifyAttestation hash codec (some (saveAttestation codec projectRoot attestation).2) fs artifactsDir = .ok true ↔
      ∀ subj ∈ attestation.subject, Matches hash fs artifactsDir subj := by
  simp only [verifyAttestation, saveAttestation, JsonCodec.tryFromSlice_toVec, verifySubjects_iff]

end Verifying

/-! ## Listings -/

/-- Whether bytes are the name of a component. -/
structure IsName (name : Bytes) : Prop where
  ne_nil : name ≠ []
  slash : 47 ∉ name
  ne_point : name ≠ [46]
  ne_points : name ≠ [46, 46]

instance (name : Bytes) : Decidable (IsName name) :=
  decidable_of_iff (name ≠ [] ∧ 47 ∉ name ∧ name ≠ [46] ∧ name ≠ [46, 46])
    ⟨fun h => ⟨h.1, h.2.1, h.2.2.1, h.2.2.2⟩, fun h => ⟨h.ne_nil, h.slash, h.ne_point, h.ne_points⟩⟩

/-- Files below a directory for which an attestation is generated. -/
structure Listing where
  fs : Tree
  projectRoot : Path
  artifactsDir : Path
  outputFiles : List Path
  now : ℕ
  distinct : fs.Distinct
  below : ∀ file ∈ outputFiles, ∃ path ≠ [], file = artifactsDir ++ path
  exist : ∀ file ∈ outputFiles, (isFile fs file).isSome
  names : ∀ file ∈ outputFiles, ∀ name ∈ file, IsName name

/-- The attestation of a listing. -/
def Listing.attestation (hash : Bytes → String) (l : Listing) : SlsaAttestation :=
  generateAttestation hash l.fs l.projectRoot l.outputFiles l.now

/-- Whether verifying the saved attestation of a listing tells later if a listed file was changed or is gone. -/
def VerifiesExactly (hash : Bytes → String) (codec : JsonCodec SlsaAttestation) (l : Listing) : Prop :=
  ∀ later : Tree, later.Distinct →
    (verifyAttestation hash codec (some (saveAttestation codec l.projectRoot (l.attestation hash)).2) later
        l.artifactsDir = .ok true ↔
      ∀ file ∈ l.outputFiles, isFile later file = isFile l.fs file)

section Listings

variable {hash : Bytes → String} {codec : JsonCodec SlsaAttestation} {fs : Tree} {artifactsDir : Path}

/-- A file in a directory is an entry of it. -/
theorem mem_names_of_isFile {entries : Entries} {name : OsString} {path : Path} {content : Bytes}
    (h : isFile (.dir entries) (name :: path) = some content) : name ∈ entries.names := by
  match entries with
  | .nil => simp at h
  | .cons first tree entries =>
    rw [isFile_dir_cons] at h
    by_cases hname : first = name
    · simp [Entries.names, hname]
    · rw [if_neg hname] at h
      simp [Entries.names, mem_names_of_isFile h]

/-- A plain name leads to the entry of a directory. -/
theorem walk_name {name : Bytes} (hname : IsName name) {entries : Entries} (hdir : fs.descend artifactsDir = .dir entries) :
    walk fs artifactsDir [name] = if name ∈ entries.names then some (artifactsDir ++ [name]) else none := by
  have hstay : ¬(name = [] ∨ name = [46]) := fun h => h.elim hname.ne_nil hname.ne_point
  simp only [walk, hdir, if_neg hstay, if_neg hname.ne_points]

/-- A plain name leads to the file of that name in the directory. -/
theorem matches_plain_iff {name : String} (hname : IsName (utf8Bytes name)) (digest : SlsaDigest) :
    Matches hash fs artifactsDir ⟨name, digest⟩ ↔
      ∃ content, isFile fs (artifactsDir ++ [utf8Bytes name]) = some content ∧ hash content = digest.blake3 := by
  have hhead : (utf8Bytes name).head? ≠ some 47 := fun h => hname.slash (List.mem_of_head? h)
  rw [Matches, locate, if_neg hhead, List.splitOn_eq_singleton hname.slash, isFile_append]
  cases hdir : fs.descend artifactsDir with
  | file | other => simp [walk, hdir]
  | dir entries =>
    rw [walk_name hname hdir]
    by_cases hmem : utf8Bytes name ∈ entries.names
    · simp [hmem, isFile_append, hdir]
    · have hnone : isFile (.dir entries) [utf8Bytes name] = none :=
        Option.eq_none_iff_forall_ne_some.mpr fun content h => hmem (mem_names_of_isFile h)
      simp [hmem, hnone]

/-- The name of an artifact is plain. -/
theorem isName_artifactName {file : Path} (hnames : ∀ name ∈ file, IsName name) :
    IsName (utf8Bytes (artifactName file)) := by
  rw [artifactName]
  cases htext : file.getLast?.bind fromUtf8 with
  | none => exact ⟨by decide, by decide, by decide, by decide⟩
  | some text =>
    obtain ⟨name, hlast, hname⟩ := Option.bind_eq_some_iff.mp htext
    rw [Option.getD_some, ← fromUtf8_eq_some_iff.mp hname]
    exact hnames name (List.mem_of_getLast? hlast)

/-- The name of a file in a directory is its text. -/
theorem artifactName_append (dir : Path) (name : String) : artifactName (dir ++ [utf8Bytes name]) = name := by
  simp [artifactName]

/-- The attestation of a listing is verified if the files of these names are the listed ones. -/
theorem verify_attestation_iff (hhash : Function.Injective hash) (l : Listing) (later : Tree) :
    verifyAttestation hash codec (some (saveAttestation codec l.projectRoot (l.attestation hash)).2) later
        l.artifactsDir = .ok true ↔
      ∀ file ∈ l.outputFiles, isFile later (l.artifactsDir ++ [utf8Bytes (artifactName file)]) = isFile l.fs file := by
  rw [verifyAttestation_iff, Listing.attestation, generateAttestation]
  simp only [List.mem_filterMap, subjectOf]
  constructor
  · intro h file hfile
    obtain ⟨content, hcontent⟩ := Option.isSome_iff_exists.mp (l.exist file hfile)
    have hmatches := h _ ⟨file, hfile, by rw [hcontent, Option.map_some]⟩
    obtain ⟨found, hfound, hsame⟩ := (matches_plain_iff (isName_artifactName (l.names file hfile)) _).mp hmatches
    rw [hfound, hcontent, hhash hsame]
  · rintro h subj ⟨file, hfile, hsubj⟩
    obtain ⟨content, hcontent, rfl⟩ := Option.map_eq_some_iff.mp hsubj
    exact (matches_plain_iff (isName_artifactName (l.names file hfile)) _).mpr ⟨content, (h file hfile).trans hcontent, rfl⟩

/-! ### Other directories -/

/-- The files among entries whose names are kept. -/
def keepFiles (keep : OsString → Bool) : Entries → Entries
  | .nil => .nil
  | .cons name (.file content) entries =>
    if keep name then .cons name (.file content) (keepFiles keep entries) else keepFiles keep entries
  | .cons _ _ entries => keepFiles keep entries

/-- A directory at a path, and nothing else. -/
def nest : Path → Tree → Tree
  | [], tree => tree
  | name :: path, tree => .dir (.cons name (nest path tree) .nil)

/-- What is kept was there. -/
theorem names_keepFiles (keep : OsString → Bool) (entries : Entries) :
    (keepFiles keep entries).names.Sublist entries.names := by
  match entries with
  | .nil => simp [keepFiles]
  | .cons name (.file content) entries =>
    have ih := names_keepFiles keep entries
    simp only [keepFiles]
    split
    · exact ih.cons_cons name
    · exact ih.cons name
  | .cons name .other entries | .cons name (.dir _) entries => exact (names_keepFiles keep entries).cons name

/-- What is kept are files. -/
theorem distinct_keepFiles (keep : OsString → Bool) (entries : Entries) : (keepFiles keep entries).Distinct := by
  match entries with
  | .nil => trivial
  | .cons name (.file content) entries =>
    have ih := distinct_keepFiles keep entries
    simp only [keepFiles]
    split
    · exact ⟨trivial, ih⟩
    · exact ih
  | .cons name .other entries | .cons name (.dir _) entries => exact distinct_keepFiles keep entries

/-- The files that are kept are those that were there under the names. -/
theorem isFile_keepFiles (keep : OsString → Bool) {entries : Entries} (hnodup : entries.names.Nodup) (name : OsString)
    (path : Path) : isFile (.dir (keepFiles keep entries)) (name :: path) =
      if keep name ∧ path = [] then isFile (.dir entries) [name] else none := by
  have hrest : ∀ {first entries}, (Entries.names (.cons first .other entries)).Nodup →
      isFile (.dir (keepFiles keep entries)) (first :: path) = none := fun hnodup =>
    Option.eq_none_iff_forall_ne_some.mpr fun content h =>
      (List.nodup_cons.mp hnodup).1 ((names_keepFiles keep _).subset (mem_names_of_isFile h))
  match entries with
  | .nil => simp [keepFiles]
  | .cons first (.file content) entries =>
    by_cases hname : first = name
    · subst hname
      cases hkeep : keep first with
      | true => cases path <;> simp [keepFiles, hkeep]
      | false => simp [keepFiles, hkeep, hrest hnodup]
    · have ih := isFile_keepFiles keep (List.nodup_cons.mp hnodup).2 name path
      cases hkeep : keep first with
      | true => simp [keepFiles, hkeep, hname, ih]
      | false => simp [keepFiles, hkeep, hname, ih]
  | .cons first .other entries | .cons first (.dir _) entries =>
    by_cases hname : first = name
    · subst hname
      simp [keepFiles, hrest hnodup]
    · simp [keepFiles, hname, isFile_keepFiles keep (List.nodup_cons.mp hnodup).2 name path]

/-- Nothing but the directory is there. -/
theorem isFile_nest_append (dir path : Path) (tree : Tree) : isFile (nest dir tree) (dir ++ path) = isFile tree path := by
  induction dir with
  | nil => rfl
  | cons name dir ih => simp [nest, ih]

/-- A directory by itself lists no name twice. -/
theorem distinct_nest (dir : Path) {tree : Tree} (h : tree.Distinct) : (nest dir tree).Distinct := by
  induction dir with
  | nil => exact h
  | cons name dir ih => exact ⟨List.nodup_singleton name, ih, trivial⟩

/-- Later only files with the listed names may be left in the directory. -/
theorem verifiesExactly_iff (hhash : Function.Injective hash) (l : Listing) :
    VerifiesExactly hash codec l ↔
      ∀ file ∈ l.outputFiles, ∃ name : String, file = l.artifactsDir ++ [utf8Bytes name] := by
  simp only [VerifiesExactly, verify_attestation_iff hhash]
  constructor
  · intro h file hfile
    have hnow := (h l.fs l.distinct).mpr fun _ _ => rfl
    obtain ⟨content, hcontent⟩ := Option.isSome_iff_exists.mp (l.exist file hfile)
    have hname := (hnow file hfile).trans hcontent
    rw [isFile_append] at hname
    cases hdir : l.fs.descend l.artifactsDir with
    | file | other => simp [hdir] at hname
    | dir entries =>
      have hdistinct := l.distinct.descend l.artifactsDir
      rw [hdir] at hdistinct
      -- Later nothing is left but what the listed names lead to.
      let keep : OsString → Bool := fun name => l.outputFiles.any fun file => name = utf8Bytes (artifactName file)
      let later := nest l.artifactsDir (.dir (keepFiles keep entries))
      have hlater : later.Distinct := distinct_nest _
        ⟨(names_keepFiles keep entries).nodup hdistinct.1, distinct_keepFiles keep entries⟩
      have hleft : ∀ name path, isFile later (l.artifactsDir ++ name :: path) =
          if keep name ∧ path = [] then isFile (.dir entries) [name] else none := fun name path => by
        rw [isFile_nest_append, isFile_keepFiles keep hdistinct.1]
      have hverified : ∀ file ∈ l.outputFiles,
          isFile later (l.artifactsDir ++ [utf8Bytes (artifactName file)]) = isFile l.fs file := by
        intro file hfile
        have hkeep : keep (utf8Bytes (artifactName file)) = true :=
          List.any_eq_true.mpr ⟨file, hfile, decide_eq_true rfl⟩
        rw [hleft, if_pos ⟨hkeep, rfl⟩, ← hnow file hfile, isFile_append, hdir]
      have hsame := (h later hlater).mp hverified file hfile
      obtain ⟨path, hpath, rfl⟩ := l.below file hfile
      obtain ⟨name, path, rfl⟩ := List.exists_cons_of_ne_nil hpath
      rw [hleft, hcontent] at hsame
      by_cases hkept : keep name ∧ path = []
      · obtain ⟨hkeep, rfl⟩ := hkept
        obtain ⟨other, -, hother⟩ := List.any_eq_true.mp hkeep
        exact ⟨artifactName other, by rw [of_decide_eq_true hother]⟩
      · rw [if_neg hkept] at hsame
        exact absurd hsame nofun
  · intro hdirect later _
    refine forall₂_congr fun file hfile => ?_
    obtain ⟨name, rfl⟩ := hdirect file hfile
    rw [artifactName_append]

/-- A listing is verified exactly if its files are directly in the directory and have text for names. A
record whose hash of hashes is wrong is refused exactly if a listed artifact does not match. -/
theorem attests_iff (hhash : Function.Injective hash) (codec : JsonCodec SlsaAttestation) :
    (∀ l : Listing, VerifiesExactly hash codec l ↔
      ∀ file ∈ l.outputFiles, ∃ name : String, file = l.artifactsDir ++ [utf8Bytes name]) ∧
    ∀ (projectRoot : Path) (attestation : SlsaAttestation) (fs : Tree) (artifactsDir : Path),
      attestation.merkleRoot ≠ merkleRoot hash attestation.subject attestation.predicate.materials →
      (verifyAttestation hash codec (some (saveAttestation codec projectRoot attestation).2) fs artifactsDir ≠ .ok true ↔
        ∃ subj ∈ attestation.subject, ¬ Matches hash fs artifactsDir subj) := by
  refine ⟨verifiesExactly_iff hhash, fun projectRoot attestation fs artifactsDir _ => ?_⟩
  rw [Ne, verifyAttestation_iff]
  simp only [not_forall, exists_prop]

end Listings

/-! ## A project with one artifact -/

/-- Attestations have numbers. -/
instance : Encodable StringMap :=
  Encodable.ofLeftInjection Finmap.entries
    (fun entries => if h : entries.keys.Nodup then some ⟨entries, Multiset.nodup_keys.mp h⟩ else none)
    fun map => dif_pos (Multiset.nodup_keys.mpr map.nodupKeys)

/-- Subjects have numbers. -/
instance : Encodable SlsaSubject :=
  Encodable.ofLeftInjection (fun subj => (subj.name, subj.digest.blake3)) (fun pair => some ⟨pair.1, ⟨pair.2⟩⟩)
    fun _ => rfl

/-- Attestations have numbers. -/
instance : Encodable SlsaAttestation :=
  Encodable.ofLeftInjection
    (fun a => ((a.schemaType, a.predicateType, a.subject, a.merkleRoot),
      a.predicate.builder, a.predicate.buildType, a.predicate.invocation.configSource, a.predicate.invocation.parameters,
      a.predicate.materials))
    (fun t => some ⟨t.1.1, t.1.2.1, t.1.2.2.1, ⟨t.2.1, t.2.2.1, ⟨t.2.2.2.1, t.2.2.2.2.1⟩, t.2.2.2.2.2⟩, t.1.2.2.2⟩)
    fun _ => rfl

/-- The hashes of an artifact, of a source, and of these two hashes. -/
def sampleDigests : Digests where
  known := [
    (utf8Bytes "pristine binary artifact", "8d515508aaacb7982de0df17d38085278b3c6ba96496676c7206598047d2cf99"),
    (utf8Bytes "pub fn clean() \x7b\x7d", "c3ec165c05cfc3e1cbbe3f7a23efbd28ab3401b4ade2784a94b316d9e27bdc50"),
    (utf8Bytes ("8d515508aaacb7982de0df17d38085278b3c6ba96496676c7206598047d2cf99" ++
      "c3ec165c05cfc3e1cbbe3f7a23efbd28ab3401b4ade2784a94b316d9e27bdc50"),
      "e3ddddc0259e99a7367d90bdd574df92d06de2ce585df5975547ee07e256fc76")]
  values_nodup := by decide +kernel
  length_eq := by decide +kernel
  nonzero := by decide +kernel

/-- The files of a project with a source and what is built. -/
def sampleFiles (target : Entries) : Tree :=
  .dir (.cons (utf8Bytes "p")
    (.dir (.cons (utf8Bytes "src") (.dir (.cons (utf8Bytes "lib.rs") (.file (utf8Bytes "pub fn clean() \x7b\x7d")) .nil))
      (.cons (utf8Bytes "target") (.dir target) .nil))) .nil)

/-- The artifact. -/
def sampleArtifact : Entries := .cons (utf8Bytes "app.exe") (.file (utf8Bytes "pristine binary artifact")) .nil

/-- The attestation of the artifact, with the sources that are given. -/
def sampleAttestation (materials : List SlsaSubject) : SlsaAttestation :=
  let generated := generateAttestation (digestOf sampleDigests) (sampleFiles sampleArtifact) [utf8Bytes "p"]
    [[utf8Bytes "p", utf8Bytes "target", utf8Bytes "app.exe"]] 1760000000
  { generated with predicate := { generated.predicate with materials := materials } }

/-- The text of this attestation, with the lines of the sources. -/
def sampleText (materials : List String) : String :=
  "\x7b\n" ++ "\n".intercalate ([
    "  \"_type\": \"https://in-toto.io/Statement/v1\",",
    "  \"predicate_type\": \"https://slsa.dev/provenance/v1\",", "  \"subject\": [", "    \x7b",
    "      \"name\": \"app.exe\",", "      \"digest\": \x7b",
    "        \"blake3\": \"8d515508aaacb7982de0df17d38085278b3c6ba96496676c7206598047d2cf99\"", "      \x7d",
    "    \x7d", "  ],", "  \"predicate\": \x7b", "    \"builder\": \x7b",
    "      \"id\": \"https://github.com/requla11/fish@v0.1.0\",", "      \"timestamp\": \"1760000000\"", "    \x7d,",
    "    \"build_type\": \"https://fish.build/slsa/v1\",", "    \"invocation\": \x7b",
    "      \"config_source\": \x7b", "        \"uri\": \"/p\"", "      \x7d,", "      \"parameters\": \x7b",
    "        \"slsa_level\": \"SLSA_BUILD_LEVEL_3\"", "      \x7d", "    \x7d,"] ++ materials ++ [
    "  \x7d,", "  \"merkle_root\": \"e3ddddc0259e99a7367d90bdd574df92d06de2ce585df5975547ee07e256fc76\"", "\x7d"])

/-- The source of the project. -/
def sampleSource : SlsaSubject := ⟨"lib.rs", ⟨"c3ec165c05cfc3e1cbbe3f7a23efbd28ab3401b4ade2784a94b316d9e27bdc50"⟩⟩

/-- The lines of the source. -/
def sourceLines : List String :=
  ["    \"materials\": [", "      \x7b", "        \"name\": \"lib.rs\",", "        \"digest\": \x7b",
    "          \"blake3\": \"c3ec165c05cfc3e1cbbe3f7a23efbd28ab3401b4ade2784a94b316d9e27bdc50\"", "        \x7d",
    "      \x7d", "    ]"]

/-- The text starts with a brace. -/
theorem head_sampleText (materials : List String) : (sampleText materials).toList.head? = some '\x7b' := by
  rw [sampleText, String.toList_append]
  rfl

/-- The text of the attestation with the sources that are given. -/
def sampleTexts (materials : List SlsaSubject) (lines : List String) : JsonCodec.Table SlsaAttestation where
  known := [(sampleAttestation materials, sampleText lines)]
  texts_nodup := List.nodup_singleton _
  nonzero := List.forall_mem_singleton.mpr (by rw [head_sampleText]; decide)

/-- The codec that writes this text. -/
def sampleCodec (materials : List SlsaSubject) (lines : List String) : JsonCodec SlsaAttestation :=
  .ofTable (sampleTexts materials lines)

/-- An artifact of the project. -/
def sampleListing (target : Entries) (artifact : Path) (htarget : (Tree.dir target).Distinct) (hpath : artifact ≠ [])
    (hartifact : (isFile (.dir target) artifact).isSome) (hnames : ∀ name ∈ artifact, IsName name) : Listing where
  fs := sampleFiles target
  projectRoot := [utf8Bytes "p"]
  artifactsDir := [utf8Bytes "p", utf8Bytes "target"]
  outputFiles := [[utf8Bytes "p", utf8Bytes "target"] ++ artifact]
  now := 1760000000
  distinct := by
    have hnames : [utf8Bytes "src", utf8Bytes "target"].Nodup := by decide
    exact ⟨List.nodup_singleton _, ⟨hnames, ⟨List.nodup_singleton _, trivial, trivial⟩, htarget, trivial⟩, trivial⟩
  below := List.forall_mem_singleton.mpr ⟨artifact, hpath, rfl⟩
  exist := by
    refine List.forall_mem_singleton.mpr ?_
    rw [isFile_append]
    exact hartifact
  names := by
    refine List.forall_mem_singleton.mpr ?_
    rw [List.forall_mem_append]
    exact ⟨by decide, hnames⟩

/-- The artifact in the directory of what is built. -/
def directListing : Listing :=
  sampleListing sampleArtifact [utf8Bytes "app.exe"] ⟨by decide, trivial, trivial⟩ (by decide) (by decide) (by decide)

/-- The artifact in a directory further below. -/
def nestedListing : Listing :=
  sampleListing (.cons (utf8Bytes "release") (.dir sampleArtifact) .nil) [utf8Bytes "release", utf8Bytes "app.exe"]
    ⟨by decide, ⟨by decide, trivial, trivial⟩, trivial⟩ (by decide) (by decide) (by decide)

/-- Both have the same attestation. -/
example : directListing.attestation (digestOf sampleDigests) = sampleAttestation [sampleSource] ∧
    nestedListing.attestation (digestOf sampleDigests) = sampleAttestation [sampleSource] := by decide +kernel

/-- The artifact in the directory itself is verified exactly. -/
theorem attests_direct :
    VerifiesExactly (digestOf sampleDigests) (sampleCodec [sampleSource] sourceLines) directListing := by
  have hhash := (digestOf_prefixFree sampleDigests).injective
  refine ((attests_iff hhash (sampleCodec [sampleSource] sourceLines)).1 directListing).mpr ?_
  exact List.forall_mem_singleton.mpr ⟨"app.exe", rfl⟩

/-- The artifact further below is not verified although nothing was changed, and with the record of
the source taken out of the attestation the artifact is verified. -/
theorem not_attests_nested :
    ¬ VerifiesExactly (digestOf sampleDigests) (sampleCodec [sampleSource] sourceLines) nestedListing ∧
    (sampleAttestation []).merkleRoot ≠
      merkleRoot (digestOf sampleDigests) (sampleAttestation []).subject (sampleAttestation []).predicate.materials ∧
    verifyAttestation (digestOf sampleDigests) (sampleCodec [] ["    \"materials\": []"])
      (some (saveAttestation (sampleCodec [] ["    \"materials\": []"]) [utf8Bytes "p"] (sampleAttestation [])).2)
      (sampleFiles sampleArtifact) [utf8Bytes "p", utf8Bytes "target"] = .ok true := by
  have hhash := (digestOf_prefixFree sampleDigests).injective
  refine ⟨fun h => ?_, fun h => ?_, ?_⟩
  · have hverified := (h nestedListing.fs nestedListing.distinct).mpr fun _ _ => rfl
    rw [verify_attestation_iff hhash] at hverified
    exact absurd (hverified _ (List.mem_singleton_self _)) (by decide)
  · simp only [sampleAttestation, generateAttestation, merkleRoot] at h
    exact absurd (hhash h) (by decide +kernel)
  · have hverified := (@verify_attestation_iff _ (sampleCodec [] []) hhash directListing directListing.fs).mpr
      (List.forall_mem_singleton.mpr rfl)
    rw [verifyAttestation_iff] at hverified ⊢
    exact hverified

end Forge.Cli.Attestation
