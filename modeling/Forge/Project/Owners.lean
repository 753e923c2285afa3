import Forge.Fingerprint.DirectoryTree
import Forge.Project.PackageGraph

/-!
# The packages that own files

A file belongs to a package when it lies below the directory of its manifest or is the
source of one of its targets. Of the members to which a file belongs, its owner is the one
with the deepest directory, and the first of several. Files without an owner concern the
whole workspace.
-/

namespace Forge.Project

open Forge.Common Forge.Fingerprint

/-- The path in a file system. -/
def osPath (path : PathBuf) : Path :=
  path.map utf8Bytes

/-- The text of an absolute path. -/
def pathString (path : PathBuf) : String :=
  "/" ++ "/".intercalate path

/-- The directory of a path. The root has none. -/
def parent : PathBuf → Option PathBuf
  | [] => none
  | component :: path => some (component :: path).dropLast

/-- Whether a file belongs to a package. Without a directory the package is taken to be in the relative
path `.`, where no absolute path starts. -/
def Package.owned (package : Package) (path : Path) : Bool :=
  (match parent package.manifestPath with
    | none => false
    | some dir => (osPath dir).isPrefixOf path) ||
  package.targets.any fun target => osPath target.srcPath == path

/-- The number of components of the directory of a package. The root of a path counts as one, and so does
the path `.`. -/
def Package.specificity (package : Package) : ℕ :=
  match parent package.manifestPath with
  | none => 1
  | some dir => dir.length + 1

/-- Find the most specific of the members to which a file belongs, with its specificity. -/
def bestOwner (path : Path) : List Package → Option (Package × ℕ) → Option (Package × ℕ)
  | [], best => best
  | package :: members, best =>
    if package.owned path then
      let specificity := package.specificity
      if (best.map fun (_, len) => decide (len < specificity)).getD true then
        bestOwner path members (some (package, specificity))
      else bestOwner path members best
    else bestOwner path members best

/-- Collect the owners of files, each package once. There are none as soon as a file has no owner. -/
def collectOwners (members : List Package) : List Path → List Package → Option (List Package)
  | [], owners => some owners
  | path :: paths, owners =>
    match bestOwner path members none with
    | none => none
    | some (package, _) =>
      if owners.any (fun p => p.id == package.id) then collectOwners members paths owners
      else collectOwners members paths (owners ++ [package])

namespace Metadata

/-- The packages of the members. -/
def memberPackages (m : Metadata) : List Package :=
  m.workspaceMembers.filterMap m.package

/-- The packages that own changed files, or `none` when the whole workspace is concerned. -/
def packagesForPaths (m : Metadata) (paths : List Path) : Option (List PackageId) :=
  match collectOwners m.memberPackages paths [] with
  | none => none
  | some owners => some (m.workspaceMembers.filter fun id => owners.any fun p => p.id == id)

end Metadata

/-! ## The most specific member -/

/-- The most specific member to which a file belongs, the first of several. -/
structure MostSpecific (members : List Package) (path : Path) (package : Package) : Prop where
  owned : package.owned path = true
  first : ∃ before after, members = before ++ package :: after ∧
    (∀ p ∈ before, p.owned path = true → p.specificity < package.specificity) ∧
    ∀ p ∈ after, p.owned path = true → p.specificity ≤ package.specificity

/-- What was found among the members that were looked at. -/
def Best (members : List Package) (path : Path) : Option (Package × ℕ) → Prop
  | none => ∀ p ∈ members, p.owned path = false
  | some (package, len) => len = package.specificity ∧ MostSpecific members path package

/-- The most specific member is among the members. -/
theorem MostSpecific.mem {members : List Package} {path : Path} {package : Package}
    (h : MostSpecific members path package) : package ∈ members := by
  obtain ⟨before, after, rfl, -, -⟩ := h.first
  exact List.mem_append_right before List.mem_cons_self

/-- No member to which a file belongs is more specific. -/
theorem MostSpecific.le {members : List Package} {path : Path} {package : Package}
    (h : MostSpecific members path package) {p : Package} (hp : p ∈ members) (howned : p.owned path = true) :
    p.specificity ≤ package.specificity := by
  obtain ⟨before, after, rfl, hbefore, hafter⟩ := h.first
  rcases List.mem_append.mp hp with hp | hp
  · exact (hbefore p hp howned).le
  · rcases List.mem_cons.mp hp with rfl | hp
    · exact le_rfl
    · exact hafter p hp howned

/-- There is one most specific member. -/
theorem MostSpecific.unique {members : List Package} {path : Path} {package package' : Package}
    (h : MostSpecific members path package) (h' : MostSpecific members path package') : package = package' := by
  obtain ⟨before, after, hmembers, hbefore, hafter⟩ := h.first
  obtain ⟨before', after', hmembers', hbefore', hafter'⟩ := h'.first
  rw [hmembers] at hmembers'
  -- The one that comes first in the list decides.
  rcases List.append_eq_append_iff.mp hmembers' with ⟨between, hsplit, hrest⟩ | ⟨between, hsplit, hrest⟩
  · cases between with
    | nil => exact (List.cons.inj hrest).1
    | cons first between =>
      obtain ⟨rfl, rfl⟩ := List.cons.inj hrest
      have hlt := hbefore' package (by rw [hsplit]; simp) h.owned
      have hle := hafter package' (by simp) h'.owned
      omega
  · cases between with
    | nil => exact (List.cons.inj hrest).1.symm
    | cons first between =>
      obtain ⟨rfl, rfl⟩ := List.cons.inj hrest
      have hlt := hbefore package' (by rw [hsplit]; simp) h'.owned
      have hle := hafter' package (by simp) h.owned
      omega

/-- A further member that is not taken. -/
theorem Best.skip {members : List Package} {path : Path} {best : Option (Package × ℕ)} (h : Best members path best)
    {package : Package}
    (hskip : package.owned path = true → ∃ p len, best = some (p, len) ∧ package.specificity ≤ len) :
    Best (members ++ [package]) path best := by
  cases best with
  | none =>
    intro p hp
    rcases List.mem_append.mp hp with hp | hp
    · exact h p hp
    · rw [List.mem_singleton.mp hp]
      by_contra howned
      obtain ⟨_, _, hsome, -⟩ := hskip (by simpa using howned)
      exact absurd hsome nofun
  | some best =>
    obtain ⟨hlen, howned, before, after, rfl, hbefore, hafter⟩ := h
    refine ⟨hlen, howned, before, after ++ [package], by simp, hbefore, fun p hp hpOwned => ?_⟩
    rcases List.mem_append.mp hp with hp | hp
    · exact hafter p hp hpOwned
    · obtain rfl := List.mem_singleton.mp hp
      obtain ⟨_, _, hsome, hle⟩ := hskip hpOwned
      obtain rfl := Option.some.inj hsome
      exact hlen ▸ hle

/-- A further member that is more specific. -/
theorem Best.take {members : List Package} {path : Path} {best : Option (Package × ℕ)} (h : Best members path best)
    {package : Package} (howned : package.owned path = true)
    (hmore : ∀ p len, best = some (p, len) → len < package.specificity) :
    Best (members ++ [package]) path (some (package, package.specificity)) := by
  refine ⟨rfl, howned, members, [], rfl, fun p hp hpOwned => ?_, fun p hp => absurd hp List.not_mem_nil⟩
  cases best with
  | none => exact absurd hpOwned (by simp [h p hp])
  | some best =>
    obtain ⟨hlen, hbest⟩ := h
    have hlt := hmore best.1 best.2 rfl
    have hle := hbest.le hp hpOwned
    omega

/-- Looking at further members. -/
theorem Best.bestOwner {members seen : List Package} {path : Path} {best : Option (Package × ℕ)}
    (h : Best seen path best) : Best (seen ++ members) path (bestOwner path members best) := by
  induction members generalizing seen best with
  | nil =>
    rw [List.append_nil]
    exact h
  | cons package members ih =>
    have hregroup : seen ++ package :: members = (seen ++ [package]) ++ members := by
      rw [List.append_assoc, List.singleton_append]
    rw [hregroup, Project.bestOwner]
    split
    · rename_i howned
      dsimp only
      split
      · rename_i hmore
        exact ih (h.take howned fun p len hbest => by simpa [hbest] using hmore)
      · rename_i hless
        refine ih (h.skip fun _ => ?_)
        cases best with
        | none => simp at hless
        | some best => exact ⟨best.1, best.2, rfl, by simpa using hless⟩
    · rename_i hother
      exact ih (h.skip fun howned => absurd howned hother)

/-- The owner of a file is the most specific member. -/
theorem bestOwner_best (members : List Package) (path : Path) :
    Best members path (bestOwner path members none) := by
  have hnone : Best [] path none := fun _ hp => absurd hp List.not_mem_nil
  exact hnone.bestOwner

/-- A file has no owner exactly when it belongs to no member. -/
theorem bestOwner_eq_none_iff {members : List Package} {path : Path} :
    bestOwner path members none = none ↔ ∀ p ∈ members, p.owned path = false := by
  have hbest := bestOwner_best members path
  constructor
  · intro hnone
    rwa [hnone] at hbest
  · intro hforeign
    cases howner : bestOwner path members none with
    | none => rfl
    | some best =>
      rw [howner] at hbest
      exact absurd hbest.2.owned (by simp [hforeign _ hbest.2.mem])

/-- A package owns a file exactly when it is the most specific member. -/
theorem bestOwner_eq_some_iff {members : List Package} {path : Path} {package : Package} {len : ℕ} :
    bestOwner path members none = some (package, len) ↔
      len = package.specificity ∧ MostSpecific members path package := by
  have hbest := bestOwner_best members path
  constructor
  · intro howner
    rwa [howner] at hbest
  · rintro ⟨rfl, hspecific⟩
    cases howner : bestOwner path members none with
    | none => exact absurd hspecific.owned (by simp [bestOwner_eq_none_iff.mp howner _ hspecific.mem])
    | some best =>
      obtain ⟨found, len⟩ := best
      rw [howner] at hbest
      obtain ⟨rfl, hfound⟩ := hbest
      obtain rfl := hfound.unique hspecific
      rfl

/-! ## All owners -/

/-- The owners are not collected exactly when some file has none. -/
theorem collectOwners_eq_none_iff {members owners : List Package} {paths : List Path} :
    collectOwners members paths owners = none ↔ ∃ path ∈ paths, ∀ p ∈ members, p.owned path = false := by
  induction paths generalizing owners with
  | nil => simp [collectOwners]
  | cons path paths ih =>
    rw [collectOwners, List.exists_mem_cons_iff, ← bestOwner_eq_none_iff]
    split
    · rename_i hnone
      simp [hnone]
    · rename_i hsome
      rw [hsome]
      split <;> simp [ih]

/-- The packages that are collected are the owners. -/
theorem exists_mem_collectOwners {members owners owners' : List Package} {paths : List Path}
    (hsome : collectOwners members paths owners = some owners') {id : PackageId} :
    (∃ p ∈ owners', p.id = id) ↔
      (∃ p ∈ owners, p.id = id) ∨ ∃ path ∈ paths, ∃ package, MostSpecific members path package ∧ package.id = id := by
  induction paths generalizing owners with
  | nil =>
    obtain rfl := Option.some.inj hsome
    simp
  | cons path paths ih =>
    rw [collectOwners] at hsome
    split at hsome
    · exact absurd hsome nofun
    · rename_i package len howner
      have hspecific := (bestOwner_eq_some_iff.mp howner).2
      have hpath : (∃ package, MostSpecific members path package ∧ package.id = id) ↔ package.id = id := by
        constructor
        · rintro ⟨package', hspecific', hid⟩
          rwa [hspecific.unique hspecific']
        · exact fun hid => ⟨package, hspecific, hid⟩
      rw [List.exists_mem_cons_iff, hpath]
      split at hsome
      · rename_i hknown
        obtain ⟨p, hp, hsame⟩ := List.any_eq_true.mp hknown
        have habsorb : package.id = id → ∃ p ∈ owners, p.id = id := fun hid => ⟨p, hp, (eq_of_beq hsame).trans hid⟩
        rw [ih hsome, ← or_assoc, or_iff_left_of_imp habsorb]
      · rw [ih hsome]
        have happend : (∃ p ∈ owners ++ [package], p.id = id) ↔ (∃ p ∈ owners, p.id = id) ∨ package.id = id := by
          simp [or_and_right, exists_or]
        rw [happend, or_assoc]

namespace Metadata

/-- The packages of the members are members. -/
theorem id_mem_of_mem_memberPackages {m : Metadata} {package : Package} (h : package ∈ m.memberPackages) :
    package.id ∈ m.workspaceMembers := by
  obtain ⟨id, hid, hfound⟩ := List.mem_filterMap.mp h
  have hsame : package.id = id := by simpa using List.find?_some hfound
  rwa [hsame]

/-- The whole workspace is concerned exactly when some file belongs to no member. -/
theorem packagesForPaths_eq_none_iff {m : Metadata} {paths : List Path} :
    m.packagesForPaths paths = none ↔ ∃ path ∈ paths, ∀ p ∈ m.memberPackages, p.owned path = false := by
  rw [← @collectOwners_eq_none_iff _ [] paths, packagesForPaths]
  split
  · rename_i hnone
    simp [hnone]
  · rename_i hsome
    simp [hsome]

/-- The packages for files are the most specific members to which the files belong. -/
theorem mem_packagesForPaths_iff {m : Metadata} {paths : List Path} {ids : List PackageId}
    (hsome : m.packagesForPaths paths = some ids) {id : PackageId} :
    id ∈ ids ↔ ∃ path ∈ paths, ∃ package, MostSpecific m.memberPackages path package ∧ package.id = id := by
  rw [packagesForPaths] at hsome
  split at hsome
  · exact absurd hsome nofun
  · rename_i owners howners
    obtain rfl := Option.some.inj hsome
    have hcollected := @exists_mem_collectOwners _ _ _ _ howners id
    simp only [List.not_mem_nil, false_and, exists_false, false_or] at hcollected
    rw [List.mem_filter, List.any_eq_true]
    simp only [beq_iff_eq]
    rw [hcollected, and_iff_right_iff_imp]
    rintro ⟨path, -, package, hspecific, rfl⟩
    exact id_mem_of_mem_memberPackages hspecific.mem

end Metadata

end Forge.Project
