import Forge.Security.Backend
import Mathlib.Data.List.AList

/-!
# The vulnerability scanner

The scanner joins what the scanners of the lock files find, drops what is not severe enough,
keeps a given number of the rest, and blocks the build if something is kept. Packages below
other packages are not listed, so that their advisories are missed.
-/

namespace Forge.Security

open Forge.Common

/-- The options of a scan. -/
structure ScanOptions where
  minSeverity : Severity
  blockOnVulnerabilities : Bool
  scanDevDependencies : Bool
  maxResults : Option ℕ

/-- The report of a scan. -/
structure ScanReport where
  projectPath : String
  scanTimestamp : ℤ
  totalVulnerabilities : ℕ
  bySeverity : AList fun _ : Severity => ℕ
  vulnerabilities : List Vulnerability
  shouldBlock : Bool

/-- How many vulnerabilities there are of each severity. -/
def countBySeverity (vulnerabilities : List Vulnerability) : AList fun _ : Severity => ℕ :=
  vulnerabilities.foldl (fun counts v => counts.insert v.severity (((counts.lookup v.severity).getD 0) + 1)) ∅

/-- What a scanner found, nothing if it failed. -/
def foundBy (result : Except SecurityError (List Vulnerability)) : List Vulnerability :=
  result.toOption.getD []

/-- What all scanners find. -/
def allVulnerabilities (lib : Libraries) (project : Project) : List Vulnerability :=
  foundBy (RustScanner.scan lib project) ++ foundBy (NpmScanner.scan lib project) ++ foundBy (MavenScanner.scan project)

/-- The first results, as many as are wanted. -/
def limitResults (maxResults : Option ℕ) (vulnerabilities : List Vulnerability) : List Vulnerability :=
  match maxResults with
  | some max => vulnerabilities.take max
  | none => vulnerabilities

/-- Scan a project. -/
def VulnerabilityScanner.scan (lib : Libraries) (project : Project) (options : ScanOptions) (now : ℤ) :
    Except SecurityError ScanReport :=
  let vulnerabilities := (allVulnerabilities lib project).filter fun v => options.minSeverity ≤ v.severity
  let vulnerabilities := limitResults options.maxResults vulnerabilities
  .ok {
    projectPath := project.path
    scanTimestamp := now
    totalVulnerabilities := vulnerabilities.length
    bySeverity := countBySeverity vulnerabilities
    vulnerabilities := vulnerabilities
    shouldBlock := options.blockOnVulnerabilities && vulnerabilities.any fun v => options.minSeverity ≤ v.severity }

/-! ## Installed packages -/

/-- A package in the `dependencies` of a lock file, or in the `dependencies` of such a package. -/
inductive Nested : List (String × JsonValue) → String → String → Prop where
  | top {entries : List (String × JsonValue)} {name version : String} {info : JsonValue} (hmem : (name, info) ∈ entries)
      (hversion : entryVersion info = some version) : Nested entries name version
  | deeper {entries below : List (String × JsonValue)} {parent name version : String} {info : JsonValue}
      (hmem : (parent, info) ∈ entries) (hbelow : (info.get "dependencies").bind JsonValue.asObject = some below)
      (hnested : Nested below name version) : Nested entries name version

/-- The key of an installed package ends with its name behind a directory `node_modules`, in any directory. -/
def InstalledAt (path name : String) : Prop :=
  path = "node_modules/" ++ name ∨ ∃ dir, path = dir ++ "/node_modules/" ++ name

/-- An installed package of a lock file: in its `dependencies` at any depth, or with a key of `packages` that ends with
its name. -/
def Installed (lock : JsonValue) (name version : String) : Prop :=
  (∃ entries, (lock.get "dependencies").bind JsonValue.asObject = some entries ∧ Nested entries name version) ∨
  ∃ entries path info, (lock.get "packages").bind JsonValue.asObject = some entries ∧ (path, info) ∈ entries ∧
    InstalledAt path name ∧ entryVersion info = some version

section Scan

variable (lib : Libraries) (project : Project) (options : ScanOptions)

/-- An installed package of an npm project has a severe advisory. -/
def NpmVulnerable : Prop :=
  ∃ content lock name version, project.packageLock = .text content ∧ lib.parseJson content = some lock ∧
    Installed lock name version ∧ Advised lib npmRules options.minSeverity name version

/-- A package that is listed in a lock file has a severe advisory, or Log4j is old. -/
def ListedVulnerable : Prop :=
  (∃ content lock name version, project.packageLock = .text content ∧ lib.parseJson content = some lock ∧
    Listed lock name version ∧ Advised lib npmRules options.minSeverity name version) ∨
  (∃ content name version, project.cargoLock = .text content ∧ (name, version) ∈ parseCargoLock content ∧
    Advised lib rustRules options.minSeverity name version) ∨
  ∃ content, project.pom = .text content ∧ hasOldLog4j content = true

/-- A build is blocked. -/
def Blocked : Prop :=
  ∀ now, ∃ report, VulnerabilityScanner.scan lib project options now = .ok report ∧ report.shouldBlock = true

variable {lib project options}

/-- Something severe is found in a Rust project when a package of its lock file has a severe advisory. -/
theorem exists_rust_iff : (∃ v ∈ foundBy (RustScanner.scan lib project), options.minSeverity ≤ v.severity) ↔
    ∃ content name version, project.cargoLock = .text content ∧ (name, version) ∈ parseCargoLock content ∧
      Advised lib rustRules options.minSeverity name version := by
  unfold RustScanner.scan
  cases project.cargoLock with
  | missing => exact ⟨fun ⟨v, hv, _⟩ => absurd hv List.not_mem_nil, fun ⟨content, _, _, h, _⟩ => absurd h nofun⟩
  | unreadable error => exact ⟨fun ⟨v, hv, _⟩ => absurd hv List.not_mem_nil, fun ⟨content, _, _, h, _⟩ => absurd h nofun⟩
  | text content =>
    refine exists_checkAdvisories_iff.trans ⟨fun ⟨name, version, h⟩ => ⟨content, name, version, rfl, h⟩, ?_⟩
    intro ⟨content', name, version, hcontent, h⟩
    rw [LockFile.text.inj hcontent]
    exact ⟨name, version, h⟩

/-- Something severe is found in an npm project when a listed package has a severe advisory. -/
theorem exists_npm_iff : (∃ v ∈ foundBy (NpmScanner.scan lib project), options.minSeverity ≤ v.severity) ↔
    ∃ content lock name version, project.packageLock = .text content ∧ lib.parseJson content = some lock ∧
      Listed lock name version ∧ Advised lib npmRules options.minSeverity name version := by
  unfold NpmScanner.scan
  cases project.packageLock with
  | missing => exact ⟨fun ⟨v, hv, _⟩ => absurd hv List.not_mem_nil, fun ⟨content, _, _, _, h, _⟩ => absurd h nofun⟩
  | unreadable error =>
    exact ⟨fun ⟨v, hv, _⟩ => absurd hv List.not_mem_nil, fun ⟨content, _, _, _, h, _⟩ => absurd h nofun⟩
  | text content =>
    refine exists_checkAdvisories_iff.trans ?_
    constructor
    · intro ⟨name, version, hmem, hadvised⟩
      cases hparse : lib.parseJson content with
      | none =>
        rw [hparse] at hmem
        exact absurd hmem List.not_mem_nil
      | some lock =>
        rw [hparse] at hmem
        exact ⟨content, lock, name, version, rfl, hparse, mem_npmPackages_iff.mp hmem, hadvised⟩
    · intro ⟨content', lock, name, version, hcontent, hparse, hlisted, hadvised⟩
      obtain rfl := LockFile.text.inj hcontent
      rw [hparse]
      exact ⟨name, version, mem_npmPackages_iff.mpr hlisted, hadvised⟩

/-- Something severe is found in a Maven project when its Log4j is old. -/
theorem exists_maven_iff : (∃ v ∈ foundBy (MavenScanner.scan project), options.minSeverity ≤ v.severity) ↔
    ∃ content, project.pom = .text content ∧ hasOldLog4j content = true := by
  unfold MavenScanner.scan
  cases project.pom with
  | missing => exact ⟨fun ⟨v, hv, _⟩ => absurd hv List.not_mem_nil, fun ⟨content, h, _⟩ => absurd h nofun⟩
  | unreadable error => exact ⟨fun ⟨v, hv, _⟩ => absurd hv List.not_mem_nil, fun ⟨content, h, _⟩ => absurd h nofun⟩
  | text content =>
    have hfound : foundBy (do
        let content ← (LockFile.text content).read "pom.xml"
        return if hasOldLog4j content then [log4Shell] else []) = if hasOldLog4j content then [log4Shell] else [] := rfl
    rw [hfound]
    constructor
    · intro ⟨v, hv, _⟩
      split at hv
      · rename_i hold
        exact ⟨content, rfl, hold⟩
      · exact absurd hv List.not_mem_nil
    · intro ⟨content', hcontent, hold⟩
      obtain rfl := LockFile.text.inj hcontent
      rw [if_pos hold]
      refine ⟨log4Shell, List.mem_singleton_self _, ?_⟩
      cases options.minSeverity <;> decide

/-- Something severe is found exactly when something listed is vulnerable. -/
theorem exists_severe_iff : (∃ v ∈ allVulnerabilities lib project, options.minSeverity ≤ v.severity) ↔
    ListedVulnerable lib project options := by
  rw [ListedVulnerable, ← exists_npm_iff, ← exists_rust_iff, ← @exists_maven_iff project options]
  simp only [allVulnerabilities, List.mem_append, or_and_right, exists_or]
  rw [or_assoc, or_left_comm]

/-- Results are kept when there are some, and it is not that none are wanted. -/
theorem limitResults_ne_nil {maxResults : Option ℕ} {vulnerabilities : List Vulnerability} :
    limitResults maxResults vulnerabilities ≠ [] ↔ maxResults ≠ some 0 ∧ vulnerabilities ≠ [] := by
  cases maxResults with
  | none => simp [limitResults]
  | some max => simp [limitResults, not_or]

/-- Only results are kept. -/
theorem limitResults_subset (maxResults : Option ℕ) (vulnerabilities : List Vulnerability) :
    limitResults maxResults vulnerabilities ⊆ vulnerabilities := by
  cases maxResults with
  | none => exact List.Subset.refl _
  | some max => exact List.take_subset max vulnerabilities

/-- A build is blocked exactly when something listed is vulnerable, and it is not that nothing may be reported. -/
theorem blocked_iff (hblock : options.blockOnVulnerabilities = true) :
    Blocked lib project options ↔ options.maxResults ≠ some 0 ∧ ListedVulnerable lib project options := by
  have hsevere : ListedVulnerable lib project options ↔
      (allVulnerabilities lib project).filter (fun v => options.minSeverity ≤ v.severity) ≠ [] := by
    rw [← exists_severe_iff, Ne, List.filter_eq_nil_iff]
    simp only [decide_eq_true_eq, not_forall, not_not, exists_prop]
  rw [hsevere, ← limitResults_ne_nil]
  simp only [Blocked, VulnerabilityScanner.scan, Except.ok.injEq, exists_eq_left', hblock, Bool.true_and, List.any_eq_true,
    forall_const]
  have hkept : ∀ v ∈ limitResults options.maxResults
      ((allVulnerabilities lib project).filter fun v => options.minSeverity ≤ v.severity),
      decide (options.minSeverity ≤ v.severity) = true := by
    intro v hv
    exact (List.mem_filter.mp (limitResults_subset _ _ hv)).2
  constructor
  · intro ⟨v, hv, _⟩
    exact List.ne_nil_of_mem hv
  · intro hsome
    obtain ⟨v, hv⟩ := List.exists_mem_of_ne_nil _ hsome
    exact ⟨v, hv, hkept v hv⟩

/-- A vulnerable installed package blocks the build exactly when, if there is one, something listed is vulnerable and
something may be reported. -/
theorem blocked_of_npmVulnerable_iff (hblock : options.blockOnVulnerabilities = true) :
    (NpmVulnerable lib project options → Blocked lib project options) ↔
      (NpmVulnerable lib project options → options.maxResults ≠ some 0 ∧ ListedVulnerable lib project options) := by
  rw [blocked_iff hblock]

end Scan

/-! ## A package below another -/

/-- Versions of three numbers, as far as the sample has them. -/
def sampleVersions : List (String × (ℕ × ℕ × ℕ)) :=
  [("1.0.0", 1, 0, 0), ("7.0.0", 7, 0, 0), ("4.17.21", 4, 17, 21), ("1.7.4", 1, 7, 4), ("6.2.1", 6, 2, 1),
    ("4.19.2", 4, 19, 2), ("8.17.1", 8, 17, 1)]

/-- Read a version. -/
def sampleParse (text : String) : Option (ℕ × ℕ × ℕ) :=
  (sampleVersions.find? fun entry => entry.1 == text).map Prod.snd

/-- The order of versions. -/
def sampleBelow (a b : ℕ × ℕ × ℕ) : Bool :=
  a.1 < b.1 || a.1 == b.1 && (a.2.1 < b.2.1 || a.2.1 == b.2.1 && a.2.2 < b.2.2)

/-- The entry of a package. -/
def sampleEntry (key version : String) : String × JsonValue :=
  (key, .object [("version", .string version)])

/-- A lock file of version 3 with the packages at two keys. -/
def sampleLock (key key' : String) : JsonValue :=
  .object [("lockfileVersion", .number "3"), ("name", .string "app"),
    ("packages", .object [sampleEntry key "1.0.0", sampleEntry key' "7.0.0"])]

/-- The text of a lock file. -/
def sampleText (key key' : String) : String :=
  "\x7b\"lockfileVersion\":3,\"name\":\"app\",\"packages\":\x7b\"" ++ key ++ "\":\x7b\"version\":\"1.0.0\"\x7d,\"" ++
    key' ++ "\":\x7b\"version\":\"7.0.0\"\x7d\x7d\x7d"

/-- The libraries on the sample. -/
def sampleLibraries (key key' : String) : Libraries where
  Version := ℕ × ℕ × ℕ
  parseVersion := sampleParse
  below := sampleBelow
  parseJson text := if text = sampleText key key' then some (sampleLock key key') else none

/-- A project with a lock file of npm. -/
def sampleProject (key key' : String) : Project :=
  ⟨"/ws", .missing, .text (sampleText key key'), .missing⟩

/-- Builds are blocked for severe vulnerabilities. -/
def sampleOptions : ScanOptions := ⟨.high, true, false, some 10⟩

/-- The lock file of the sample is read. -/
theorem parseJson_sample (key key' : String) :
    (sampleLibraries key key').parseJson (sampleText key key') = some (sampleLock key key') := by
  unfold sampleLibraries
  exact if_pos rfl

/-- The old version of `ws` has an advisory. -/
theorem advised_sample (key key' : String) : Advised (sampleLibraries key key') npmRules .high "ws" "7.0.0" := by
  have hparsed : sampleParse "7.0.0" = some (7, 0, 0) := by decide
  have hfix : sampleParse "8.17.1" = some (8, 17, 1) := by decide
  have hbelow : sampleBelow (7, 0, 0) (8, 17, 1) = true := by decide
  refine ⟨⟨"ws", "8.17.1", "CVE-2024-37890", .high, "Resource exhaustion via crafted Sec-WebSocket-Extensions"⟩, ?_⟩
  exact ⟨by decide, rfl, by decide, (7, 0, 0), (8, 17, 1), hparsed, hfix, hbelow⟩

/-- A package at the top is installed. -/
theorem vulnerable_sample : NpmVulnerable (sampleLibraries "node_modules/a" "node_modules/ws")
    (sampleProject "node_modules/a" "node_modules/ws") sampleOptions := by
  refine ⟨_, _, "ws", "7.0.0", rfl, parseJson_sample _ _, Or.inr ?_, advised_sample _ _⟩
  have hkey : InstalledAt "node_modules/ws" "ws" := Or.inl (by decide +kernel)
  exact ⟨_, _, _, rfl, List.mem_cons_of_mem _ List.mem_cons_self, hkey, rfl⟩

/-- A package at the top is listed, and blocks the build. -/
theorem blocked_sample : Blocked (sampleLibraries "node_modules/a" "node_modules/ws")
    (sampleProject "node_modules/a" "node_modules/ws") sampleOptions := by
  refine (blocked_of_npmVulnerable_iff rfl).mpr (fun _ => ⟨nofun, Or.inl ?_⟩) vulnerable_sample
  refine ⟨_, _, "ws", "7.0.0", rfl, parseJson_sample _ _, Or.inr ?_, advised_sample _ _⟩
  have hkey : keyName "node_modules/ws" = "ws" := by decide +kernel
  exact ⟨_, _, _, rfl, List.mem_cons_of_mem _ List.mem_cons_self, hkey, by decide, rfl⟩

/-- A package below another is installed, and is not listed. -/
theorem not_blocked_nested :
    sampleOptions.blockOnVulnerabilities = true ∧
      NpmVulnerable (sampleLibraries "node_modules/a" "node_modules/a/node_modules/ws")
        (sampleProject "node_modules/a" "node_modules/a/node_modules/ws") sampleOptions ∧
      ¬ Blocked (sampleLibraries "node_modules/a" "node_modules/a/node_modules/ws")
        (sampleProject "node_modules/a" "node_modules/a/node_modules/ws") sampleOptions := by
  refine ⟨rfl, ?_, fun hblocked => ?_⟩
  · refine ⟨_, _, "ws", "7.0.0", rfl, parseJson_sample _ _, Or.inr ?_, advised_sample _ _⟩
    have hkey : InstalledAt "node_modules/a/node_modules/ws" "ws" := Or.inr ⟨"node_modules/a", by decide +kernel⟩
    exact ⟨_, _, _, rfl, List.mem_cons_of_mem _ List.mem_cons_self, hkey, rfl⟩
  · have hopen : (VulnerabilityScanner.scan (sampleLibraries "node_modules/a" "node_modules/a/node_modules/ws")
        (sampleProject "node_modules/a" "node_modules/a/node_modules/ws") sampleOptions 0).toOption.any
        (·.shouldBlock) = false := by decide +kernel
    obtain ⟨report, hok, hblock⟩ := hblocked 0
    rw [hok, Except.toOption, Option.any_some, hblock] at hopen
    exact Bool.false_ne_true hopen.symm

end Forge.Security
