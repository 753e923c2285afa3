import Forge.Common.JsonCodec
import Forge.Common.Text
import Mathlib.Data.List.Infix

/-!
# The scanners of lock files

A scanner reads the packages of a lock file and looks them up in a list of advisories. A
package has a vulnerability when its version is below the one that fixes it.
-/

namespace Forge.Security

open Forge.Common

/-- How severe a vulnerability is. -/
inductive Severity where
  | none
  | low
  | medium
  | high
  | critical
deriving DecidableEq, Repr

/-- The place of a severity in their order. -/
def Severity.rank : Severity → ℕ
  | .none => 0
  | .low => 1
  | .medium => 2
  | .high => 3
  | .critical => 4

/-- Severities are ordered by their places. -/
instance : LE Severity := ⟨fun a b => a.rank ≤ b.rank⟩

/-- The order can be decided. -/
instance (a b : Severity) : Decidable (a ≤ b) := inferInstanceAs (Decidable (a.rank ≤ b.rank))

/-- Where a vulnerability is known from. -/
inductive VulnerabilitySource where
  | nvd
  | rustSec
  | npm
  | maven
deriving DecidableEq, Repr

/-- A vulnerability of a package. -/
structure Vulnerability where
  id : String
  package : String
  affectedVersions : String
  fixedVersion : Option String
  severity : Severity
  source : VulnerabilitySource
  description : String
deriving DecidableEq, Repr

/-- A vulnerability without details. -/
def Vulnerability.new (id package : String) (severity : Severity) : Vulnerability :=
  ⟨id, package, "", none, severity, .nvd, ""⟩

/-- An advisory for a package, with the version that fixes it. -/
structure Rule where
  name : String
  fixVersion : String
  id : String
  severity : Severity
  description : String
deriving DecidableEq, Repr

/-- What is used of other libraries: versions with their order, and the parser of JSON. -/
structure Libraries where
  Version : Type
  parseVersion : String → Option Version
  below : Version → Version → Bool
  parseJson : String → Option JsonValue

/-- Why a scanner has no result. -/
inductive SecurityError where
  | lockFileNotFound (message : String)
  | ioError (message : String)
deriving DecidableEq, Repr

/-- What is at the path of a lock file. -/
inductive LockFile where
  | missing
  | unreadable (error : String)
  | text (content : String)

/-- The lock files of a project. -/
structure Project where
  path : String
  cargoLock : LockFile
  packageLock : LockFile
  pom : LockFile

/-- Read a lock file. -/
def LockFile.read (name : String) : LockFile → Except SecurityError String
  | .missing => .error (.lockFileNotFound (name ++ " not found"))
  | .unreadable error => .error (.ioError error)
  | .text content => .ok content

section Advisories

variable (lib : Libraries)

/-- Whether an advisory is about a version of a package. -/
def Rule.concerns (rule : Rule) (name : String) (version : lib.Version) : Bool :=
  name == rule.name && (lib.parseVersion rule.fixVersion).any fun fix => lib.below version fix

/-- The vulnerability of an advisory. -/
def Rule.vulnerability (rule : Rule) (source : VulnerabilitySource) (package : String) : Vulnerability :=
  { Vulnerability.new rule.id package rule.severity with
    source := source
    description := rule.description
    affectedVersions := "< " ++ rule.fixVersion
    fixedVersion := some rule.fixVersion }

/-- Look packages up in a list of advisories. -/
def checkAdvisories (source : VulnerabilitySource) (knownRules : List Rule) (packages : List (String × String)) :
    List Vulnerability :=
  packages.flatMap fun package =>
    match lib.parseVersion package.2 with
    | none => []
    | some version =>
      (knownRules.filter fun rule => rule.concerns lib package.1 version).map fun rule =>
        rule.vulnerability source package.1

end Advisories

/-! ## Rust -/

/-- The advisories for Rust. -/
def rustRules : List Rule :=
  [⟨"lru", "0.16.3", "GHSA-rhfx-m35p-ff5j", .low, "IterMut violates Stacked Borrows by invalidating internal pointer"⟩,
    ⟨"h2", "0.3.26", "RUSTSEC-2024-0332", .high, "HTTP/2 CONTINUATION flood can lead to unbounded CPU allocation"⟩,
    ⟨"hyper", "0.14.30", "RUSTSEC-2024-0376", .medium, "HTTP request smuggling via chunk extension parsing"⟩,
    ⟨"openssl", "0.10.60", "RUSTSEC-2023-0052", .high, "OpenSSL memory corruption in legacy bindings"⟩,
    ⟨"tar", "0.4.40", "RUSTSEC-2023-0001", .medium, "Directory traversal through malformed archive entries"⟩,
    ⟨"rsa", "0.9.6", "RUSTSEC-2023-0071", .high, "Marvin attack side-channel leakage in PKCS#1 v1.5 decryption"⟩]

/-- The value of a line of a lock file, without its quotes. -/
def lineValue (start line : List Char) : String :=
  String.ofList (trimMatches (· == '"') (trimStartMatches start line))

/-- Read a line of a lock file: the packages so far, and the name of one whose version is to come. -/
def parseLine (state : List (String × String) × Option String) (line : List Char) :
    List (String × String) × Option String :=
  let line := trim line
  if "name = ".toList <+: line then (state.1, some (lineValue "name = ".toList line))
  else if "version = ".toList <+: line then
    match state.2 with
    | some name => (state.1 ++ [(name, lineValue "version = ".toList line)], none)
    | none => state
  else if line = "[[package]]".toList then (state.1, none)
  else state

/-- The packages of a `Cargo.lock`. -/
def parseCargoLock (content : String) : List (String × String) :=
  ((lines content.toList).foldl parseLine ([], none)).1

/-- Scan a Rust project. -/
def RustScanner.scan (lib : Libraries) (project : Project) : Except SecurityError (List Vulnerability) := do
  let content ← project.cargoLock.read "Cargo.lock"
  return checkAdvisories lib .rustSec rustRules (parseCargoLock content)

/-! ## npm -/

/-- The advisories for npm. -/
def npmRules : List Rule :=
  [⟨"lodash", "4.17.21", "CVE-2021-23337", .high, "Command injection in template function"⟩,
    ⟨"axios", "1.7.4", "CVE-2024-39338", .medium, "Server-side request forgery (SSRF) bypass"⟩,
    ⟨"tar", "6.2.1", "CVE-2024-28863", .high, "Denial of service via unbounded memory allocation"⟩,
    ⟨"express", "4.19.2", "CVE-2024-29041", .medium, "Open redirect vulnerability in res.location"⟩,
    ⟨"ws", "8.17.1", "CVE-2024-37890", .high, "Resource exhaustion via crafted Sec-WebSocket-Extensions"⟩]

/-- The version in an entry of a lock file. -/
def entryVersion (info : JsonValue) : Option String :=
  (info.get "version").bind JsonValue.asStr

/-- The packages of `dependencies`. -/
def dependencyPackages (entries : List (String × JsonValue)) : List (String × String) :=
  entries.filterMap fun entry => (entryVersion entry.2).map fun version => (entry.1, version)

/-- The name in a key of `packages`. -/
def keyName (path : String) : String :=
  String.ofList (trimStartMatches "node_modules/".toList path.toList)

/-- The packages of `packages`. -/
def pathPackages (entries : List (String × JsonValue)) : List (String × String) :=
  entries.filterMap fun entry =>
    ((entryVersion entry.2).filter fun _ => keyName entry.1 ≠ "").map fun version => (keyName entry.1, version)

/-- The packages of a `package-lock.json`. -/
def npmPackages (lock : JsonValue) : List (String × String) :=
  (((lock.get "dependencies").bind JsonValue.asObject).elim [] dependencyPackages) ++
    (((lock.get "packages").bind JsonValue.asObject).elim [] pathPackages)

/-- Scan an npm project. -/
def NpmScanner.scan (lib : Libraries) (project : Project) : Except SecurityError (List Vulnerability) := do
  let content ← project.packageLock.read "package-lock.json"
  return checkAdvisories lib .npm npmRules ((lib.parseJson content).elim [] npmPackages)

/-! ## Maven -/

/-- Whether a text occurs in another. -/
def containsText (part : String) (text : String) : Bool := part.toList <:+: text.toList

/-- The vulnerability of Log4j. -/
def log4Shell : Vulnerability :=
  { Vulnerability.new "CVE-2021-44228" "log4j-core" .critical with
    source := .maven
    description := "Remote code execution via JNDI lookup (Log4Shell)"
    fixedVersion := some "2.17.1" }

/-- Whether a `pom.xml` has an old Log4j. -/
def hasOldLog4j (content : String) : Bool :=
  containsText "log4j-core" content && (containsText "2.14." content || containsText "2.15." content)

/-- Scan a Maven project. -/
def MavenScanner.scan (project : Project) : Except SecurityError (List Vulnerability) := do
  let content ← project.pom.read "pom.xml"
  return if hasOldLog4j content then [log4Shell] else []

/-! ## What is found -/

/-- A version of a package has an advisory of a severity. -/
def Advised (lib : Libraries) (knownRules : List Rule) (minSeverity : Severity) (name version : String) : Prop :=
  ∃ rule ∈ knownRules, rule.name = name ∧ minSeverity ≤ rule.severity ∧
    ∃ parsed fix, lib.parseVersion version = some parsed ∧ lib.parseVersion rule.fixVersion = some fix ∧
      lib.below parsed fix = true

variable {lib : Libraries}

/-- Whether an advisory is about a version. -/
theorem concerns_iff {rule : Rule} {name : String} {version : lib.Version} : rule.concerns lib name version = true ↔
    rule.name = name ∧ ∃ fix, lib.parseVersion rule.fixVersion = some fix ∧ lib.below version fix = true := by
  rw [Rule.concerns, Bool.and_eq_true, beq_iff_eq, Option.any_eq_true, eq_comm]

/-- Something severe is found among packages exactly when one of them has a severe advisory. -/
theorem exists_checkAdvisories_iff {source : VulnerabilitySource} {knownRules : List Rule}
    {packages : List (String × String)} {minSeverity : Severity} :
    (∃ v ∈ checkAdvisories lib source knownRules packages, minSeverity ≤ v.severity) ↔
      ∃ name version, (name, version) ∈ packages ∧ Advised lib knownRules minSeverity name version := by
  constructor
  · intro ⟨v, hv, hsevere⟩
    obtain ⟨⟨name, version⟩, hmem, hv⟩ := List.mem_flatMap.mp hv
    refine ⟨name, version, hmem, ?_⟩
    dsimp only at hv
    split at hv
    · exact absurd hv List.not_mem_nil
    · rename_i parsed hparsed
      obtain ⟨rule, hrule, rfl⟩ := List.mem_map.mp hv
      obtain ⟨hknown, hconcerns⟩ := List.mem_filter.mp hrule
      obtain ⟨hname, fix, hfix, hbelow⟩ := concerns_iff.mp hconcerns
      exact ⟨rule, hknown, hname, hsevere, parsed, fix, hparsed, hfix, hbelow⟩
  · intro ⟨name, version, hmem, rule, hknown, hname, hsevere, parsed, fix, hparsed, hfix, hbelow⟩
    refine ⟨rule.vulnerability source name, List.mem_flatMap.mpr ⟨(name, version), hmem, ?_⟩, hsevere⟩
    dsimp only
    rw [hparsed]
    refine List.mem_map.mpr ⟨rule, List.mem_filter.mpr ⟨hknown, ?_⟩, rfl⟩
    exact concerns_iff.mpr ⟨hname, fix, hfix, hbelow⟩

/-- A package is listed: at the top of `dependencies`, or with a key of `packages` that is its name behind
`node_modules/`. -/
def Listed (lock : JsonValue) (name version : String) : Prop :=
  (∃ entries info, (lock.get "dependencies").bind JsonValue.asObject = some entries ∧ (name, info) ∈ entries ∧
    entryVersion info = some version) ∨
  ∃ entries path info, (lock.get "packages").bind JsonValue.asObject = some entries ∧ (path, info) ∈ entries ∧
    keyName path = name ∧ name ≠ "" ∧ entryVersion info = some version

/-- The packages that are read are those that are listed. -/
theorem mem_npmPackages_iff {lock : JsonValue} {name version : String} :
    (name, version) ∈ npmPackages lock ↔ Listed lock name version := by
  rw [npmPackages, List.mem_append, Listed]
  refine or_congr ?_ ?_
  · cases (lock.get "dependencies").bind JsonValue.asObject with
    | none => simp
    | some entries => simp [dependencyPackages]
  · cases (lock.get "packages").bind JsonValue.asObject with
    | none => simp
    | some entries =>
      simp only [Option.elim_some, pathPackages, List.mem_filterMap, Option.map_eq_some_iff, Option.filter_eq_some_iff,
        decide_eq_true_eq, Prod.mk.injEq, Option.some.injEq, Prod.exists]
      constructor
      · intro ⟨path, info, hmem, found, ⟨hversion, hname⟩, hsame, hfound⟩
        exact ⟨entries, path, info, rfl, hmem, hsame, hsame ▸ hname, hfound ▸ hversion⟩
      · intro ⟨_, path, info, hentries, hmem, hsame, hname, hversion⟩
        exact ⟨path, info, hentries ▸ hmem, version, ⟨hversion, hsame ▸ hname⟩, hsame, rfl⟩

/-- The key of a package that is not below another is its name behind `node_modules/`. -/
theorem keyName_top {name : String} (hname : ¬ "node_modules/".toList <+: name.toList) :
    keyName ("node_modules/" ++ name) = name := by
  have hkept : ∀ limit, dropStarts "node_modules/".toList limit name.toList = name.toList := by
    intro limit
    cases limit with
    | zero => rfl
    | succ limit => rw [dropStarts, stripPrefix, if_neg hname]
  have hlength : ("node_modules/" ++ name).toList.length = 12 + name.toList.length + 1 := by
    rw [String.toList_append, List.length_append, show "node_modules/".toList.length = 13 by decide]
    omega
  apply String.toList_injective
  rw [keyName, trimStartMatches, hlength, dropStarts, String.toList_append, stripPrefix,
    if_pos (List.prefix_append _ _), List.drop_left]
  dsimp only
  rw [hkept, String.toList_ofList]

/-- A package that is not below another is listed. -/
theorem listed_top {lock : JsonValue} {name version : String} {entries : List (String × JsonValue)} {info : JsonValue}
    (hentries : (lock.get "packages").bind JsonValue.asObject = some entries)
    (hmem : ("node_modules/" ++ name, info) ∈ entries) (hversion : entryVersion info = some version) (hne : name ≠ "")
    (hname : ¬ "node_modules/".toList <+: name.toList) : Listed lock name version :=
  Or.inr ⟨entries, _, info, hentries, hmem, keyName_top hname, hne, hversion⟩

end Forge.Security
