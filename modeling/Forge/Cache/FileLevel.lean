import Forge.Cas.Artifact
import Forge.Common.Multimaps
import Forge.Common.Utf8
import Forge.Common.Worklist

/-!
# Invalidation of files and of those that depend on them

The cache of files goes by a key, which is the text of the path with slashes for backslashes,
and what cannot be read as text replaced. The graph of dependencies goes by paths, and two
paths are the same one there when they have the same components. Both are taken on Unix, where
a path is any bytes.

An invalidation expands every file once that depends on the given one, under the spelling
that it meets first.
-/

namespace Forge.Cache

open Relation Forge.Common Forge.Cas

/-- A path. -/
abbrev PathBuf := Bytes

/-- A component of a path. -/
inductive PathComponent where
  | rootDir
  | curDir
  | parentDir
  | normal (name : Bytes)
  deriving DecidableEq, Repr

/-- The component that a piece of a path between slashes is, if it counts as one. -/
def PathComponent.ofPiece (piece : Bytes) : Option PathComponent :=
  if piece = [] ∨ piece = [46] then none
  else if piece = [46, 46] then some .parentDir
  else some (.normal piece)

/-- The components of a path, by which paths are compared and hashed. -/
def pathComponents (path : PathBuf) : List PathComponent :=
  (if path.head? = some 47 then [.rootDir]
    else if (path.splitOn 47).head? = some [46] then [.curDir] else []) ++
    (path.splitOn 47).filterMap PathComponent.ofPiece

/-- `a//./b/` is the path `a/b`, and `a\b` is another one. -/
example : pathComponents [97, 47, 47, 46, 47, 98, 47] = pathComponents [97, 47, 98] ∧
    pathComponents [97, 92, 98] ≠ pathComponents [97, 47, 98] := by decide

/-! ## The cache -/

/-- The cache of files. -/
structure FileLevelCache where
  fileArtifacts : AList fun _ : Bytes => ArtifactHash
  casStorage : AList fun _ : ArtifactHash => Artifact

namespace FileLevelCache

/-- A cache without files. -/
def new : FileLevelCache := ⟨∅, ∅⟩

/-- The form of a path that keys have. -/
def normalizePathKey (path : PathBuf) : Bytes :=
  (toStringLossy path).map fun byte => if byte = 92 then 47 else byte

/-- The key of a file. -/
def fileKey (filePath : PathBuf) : Bytes := normalizePathKey filePath

/-- Whether a file is cached. -/
def isFileCached (cache : FileLevelCache) (filePath : PathBuf) : Bool :=
  (cache.fileArtifacts.lookup (fileKey filePath)).isSome

/-- The artifact of a file. -/
def getFileArtifact (cache : FileLevelCache) (filePath : PathBuf) : Option Artifact :=
  (cache.fileArtifacts.lookup (fileKey filePath)).bind fun hash => cache.casStorage.lookup hash

/-- Cache the artifact of a file. -/
def cacheFile (cache : FileLevelCache) (filePath : PathBuf) (artifact : Artifact) : FileLevelCache where
  fileArtifacts := cache.fileArtifacts.insert (fileKey filePath) artifact.metadata.hash
  casStorage := cache.casStorage.insert artifact.metadata.hash artifact

/-- Invalidate a file. -/
def invalidateFile (cache : FileLevelCache) (filePath : PathBuf) : FileLevelCache :=
  { cache with fileArtifacts := cache.fileArtifacts.erase (fileKey filePath) }

/-- Invalidating files leaves the artifacts in the store. -/
@[simp] theorem casStorage_foldr_invalidateFile (cache : FileLevelCache) (files : List PathBuf) :
    (files.foldr (fun file cache => cache.invalidateFile file) cache).casStorage = cache.casStorage := by
  induction files with
  | nil => rfl
  | cons file files ih => exact ih

/-- A key that no invalidated file has keeps its hash. -/
theorem lookup_foldr_of_ne {cache : FileLevelCache} {files : List PathBuf} {key : Bytes}
    (hkey : ∀ file ∈ files, fileKey file ≠ key) :
    (files.foldr (fun file cache => cache.invalidateFile file) cache).fileArtifacts.lookup key =
      cache.fileArtifacts.lookup key := by
  induction files with
  | nil => rfl
  | cons file files ih =>
    rw [List.foldr_cons, invalidateFile, AList.lookup_erase_ne (hkey file List.mem_cons_self).symm]
    exact ih fun other hother => hkey other (List.mem_cons_of_mem _ hother)

/-- The key of an invalidated file is gone. -/
theorem lookup_foldr_of_mem {cache : FileLevelCache} {files : List PathBuf} {file : PathBuf} (hfile : file ∈ files) :
    (files.foldr (fun file cache => cache.invalidateFile file) cache).fileArtifacts.lookup (fileKey file) = none := by
  induction files with
  | nil => exact absurd hfile List.not_mem_nil
  | cons other files ih =>
    rw [List.foldr_cons, invalidateFile]
    by_cases hkey : fileKey file = fileKey other
    · rw [hkey, AList.lookup_erase]
    · rw [AList.lookup_erase_ne hkey]
      exact ih ((List.mem_cons.mp hfile).resolve_left fun heq => hkey (congrArg fileKey heq))

/-- An invalidated file is not cached. -/
theorem isFileCached_foldr_of_mem {cache : FileLevelCache} {files : List PathBuf} {file : PathBuf}
    (hfile : file ∈ files) :
    (files.foldr (fun file cache => cache.invalidateFile file) cache).isFileCached file = false := by
  rw [isFileCached, lookup_foldr_of_mem hfile, Option.isSome_none]

/-- A file whose key no invalidated file has keeps its artifact. -/
theorem getFileArtifact_foldr_of_ne {cache : FileLevelCache} {files : List PathBuf} {file : PathBuf}
    (hkey : ∀ other ∈ files, fileKey other ≠ fileKey file) :
    (files.foldr (fun file cache => cache.invalidateFile file) cache).getFileArtifact file =
      cache.getFileArtifact file := by
  rw [getFileArtifact, getFileArtifact, lookup_foldr_of_ne hkey, casStorage_foldr_invalidateFile]

end FileLevelCache

/-! ## The graph -/

/-- The files that files depend on, and the other way. -/
structure FileDependencyGraph where
  dependencies : Multimap (List PathComponent) PathBuf
  reverseDependencies : Multimap (List PathComponent) PathBuf

namespace FileDependencyGraph

/-- A graph without files. -/
def new : FileDependencyGraph := ⟨∅, ∅⟩

/-- Add that a file depends on another one. -/
def addDependency (g : FileDependencyGraph) (file dependsOn : PathBuf) : FileDependencyGraph where
  dependencies := g.dependencies.extend (pathComponents file) [dependsOn]
  reverseDependencies := g.reverseDependencies.extend (pathComponents dependsOn) [file]

/-- Add dependencies one after another. -/
def addDependencies (g : FileDependencyGraph) (edges : List (PathBuf × PathBuf)) : FileDependencyGraph :=
  edges.foldl (fun g edge => g.addDependency edge.1 edge.2) g

/-- The files that depend on a file. -/
def dependentsOf (g : FileDependencyGraph) (file : List PathComponent) : List PathBuf :=
  (g.reverseDependencies.lookup file).getD []

/-- The files that depend on the file at a path. -/
def getDependents (g : FileDependencyGraph) (file : PathBuf) : List PathBuf := g.dependentsOf (pathComponents file)

/-- Invalidate the files of a queue, which has its end first, and those that depend on them. -/
def invalidateLoop (g : FileDependencyGraph) :
    ℕ → List PathBuf → List (List PathComponent) → FileLevelCache → Option FileLevelCache
  | _, [], _, cache => some cache
  | 0, _ :: _, _, _ => none
  | fuel + 1, current :: queue, visited, cache =>
    if pathComponents current ∈ visited then g.invalidateLoop fuel queue visited cache
    else
      let visited := pathComponents current :: visited
      let cache := cache.invalidateFile current
      g.invalidateLoop fuel
        (((g.getDependents current).filter fun dependent => pathComponents dependent ∉ visited).reverse ++ queue)
        visited cache

/-- Invalidate a file and the files that depend on it. -/
def invalidateWithDependents (g : FileDependencyGraph) (file : PathBuf) (cache : FileLevelCache) (fuel : ℕ) :
    Option FileLevelCache :=
  g.invalidateLoop fuel [file] [] cache

/-- A file depends on another one. -/
def DependsOn (g : FileDependencyGraph) (file dependency : List PathComponent) : Prop :=
  ∃ path ∈ (g.dependencies.lookup file).getD [], pathComponents path = dependency

/-- A path is one from which another path is reached along dependencies. -/
def Reaches (g : FileDependencyGraph) (path file : PathBuf) : Prop :=
  ReflTransGen g.DependsOn (pathComponents path) (pathComponents file)

/-- A new dependency is one more. -/
theorem dependsOn_addDependency (g : FileDependencyGraph) (file dependsOn : PathBuf) (a b : List PathComponent) :
    (g.addDependency file dependsOn).DependsOn a b ↔
      g.DependsOn a b ∨ (pathComponents file = a ∧ pathComponents dependsOn = b) := by
  simp only [DependsOn, addDependency, Multimap.mem_lookup_extend, List.mem_singleton]
  constructor
  · rintro ⟨path, hold | ⟨hfile, rfl⟩, hpath⟩
    · exact Or.inl ⟨path, hold, hpath⟩
    · exact Or.inr ⟨hfile, hpath⟩
  · rintro (⟨path, hold, hpath⟩ | ⟨hfile, hpath⟩)
    · exact ⟨path, Or.inl hold, hpath⟩
    · exact ⟨dependsOn, Or.inr ⟨hfile, rfl⟩, hpath⟩

/-- The new dependent of a file is one more. -/
theorem mem_dependentsOf_addDependency (g : FileDependencyGraph) (file dependsOn : PathBuf)
    (b : List PathComponent) (path : PathBuf) :
    path ∈ (g.addDependency file dependsOn).dependentsOf b ↔
      path ∈ g.dependentsOf b ∨ (pathComponents dependsOn = b ∧ path = file) := by
  rw [dependentsOf, addDependency, Multimap.mem_lookup_extend, List.mem_singleton, dependentsOf]

/-- Both maps of a graph have the same dependencies. -/
def Mirrored (g : FileDependencyGraph) : Prop :=
  ∀ a b, g.DependsOn a b ↔ Leads pathComponents g.dependentsOf b a

/-- A graph without files is mirrored. -/
theorem mirrored_new : new.Mirrored := by
  intro a b
  constructor
  · rintro ⟨path, hpath, -⟩
    exact absurd hpath List.not_mem_nil
  · rintro ⟨path, hpath, -⟩
    exact absurd hpath List.not_mem_nil

/-- A new dependency goes to both maps. -/
theorem Mirrored.addDependency {g : FileDependencyGraph} (h : g.Mirrored) (file dependsOn : PathBuf) :
    (g.addDependency file dependsOn).Mirrored := by
  intro a b
  rw [dependsOn_addDependency, h]
  constructor
  · rintro (⟨path, hpath, ha⟩ | ⟨hfile, hdependency⟩)
    · exact ⟨path, (mem_dependentsOf_addDependency ..).mpr (Or.inl hpath), ha⟩
    · exact ⟨file, (mem_dependentsOf_addDependency ..).mpr (Or.inr ⟨hdependency, rfl⟩), hfile⟩
  · rintro ⟨path, hpath, ha⟩
    rcases (mem_dependentsOf_addDependency ..).mp hpath with hold | ⟨hdependency, rfl⟩
    · exact Or.inl ⟨path, hold, ha⟩
    · exact Or.inr ⟨ha, hdependency⟩

/-- What dependencies make of a graph is mirrored. -/
theorem Mirrored.addDependencies {g : FileDependencyGraph} (h : g.Mirrored) (edges : List (PathBuf × PathBuf)) :
    (g.addDependencies edges).Mirrored := by
  induction edges generalizing g with
  | nil => exact h
  | cons edge edges ih => exact ih (h.addDependency edge.1 edge.2)

/-- The files of a graph that depend on others are those of the dependencies that were added. -/
theorem mem_dependentsOf_addDependencies {g : FileDependencyGraph} {edges : List (PathBuf × PathBuf)}
    {b : List PathComponent} {path : PathBuf} (h : path ∈ (g.addDependencies edges).dependentsOf b) :
    path ∈ g.dependentsOf b ∨ path ∈ edges.map Prod.fst := by
  induction edges generalizing g with
  | nil => exact Or.inl h
  | cons edge edges ih =>
    rw [List.map_cons, List.mem_cons]
    rcases ih h with hg | hedges
    · rcases (mem_dependentsOf_addDependency ..).mp hg with hold | ⟨-, rfl⟩
      · exact Or.inl hold
      · exact Or.inr (Or.inl rfl)
    · exact Or.inr (Or.inr hedges)

/-- Every dependency makes one more dependent. -/
theorem length_pairs_addDependencies (g : FileDependencyGraph) (edges : List (PathBuf × PathBuf)) :
    (g.addDependencies edges).reverseDependencies.pairs.length = g.reverseDependencies.pairs.length + edges.length := by
  induction edges generalizing g with
  | nil => rfl
  | cons edge edges ih =>
    have hstep := (Multimap.pairs_extend g.reverseDependencies (pathComponents edge.2) [edge.1]).length_eq
    rw [List.length_append, List.length_map, List.length_singleton] at hstep
    have hrest := ih (g.addDependency edge.1 edge.2)
    rw [FileDependencyGraph.addDependency, hstep] at hrest
    rw [List.length_cons, addDependencies, List.foldl_cons]
    exact hrest.trans (by omega)

/-- The loop invalidates what a worklist over the dependents expands. -/
theorem invalidateLoop_eq (g : FileDependencyGraph) (fuel : ℕ) (queue expanded : List PathBuf)
    (cache : FileLevelCache) :
    g.invalidateLoop fuel queue (expanded.map pathComponents)
        (expanded.foldr (fun file cache => cache.invalidateFile file) cache) =
      (worklist pathComponents g.dependentsOf fuel queue expanded).map fun all =>
        all.foldr (fun file cache => cache.invalidateFile file) cache := by
  induction fuel generalizing queue expanded with
  | zero => cases queue <;> rfl
  | succ fuel ih =>
    cases queue with
    | nil => rfl
    | cons current queue =>
      rw [invalidateLoop, worklist]
      by_cases hvisited : pathComponents current ∈ expanded.map pathComponents
      · rw [if_pos hvisited, if_pos hvisited]
        exact ih queue expanded
      · rw [if_neg hvisited, if_neg hvisited]
        refine (ih _ (current :: expanded)).trans ?_
        congr!

/-- A file without an entry has no dependents. -/
theorem dependentsOf_eq_nil (g : FileDependencyGraph) (file : List PathComponent)
    (h : file ∉ g.reverseDependencies.keys.toFinset) : g.dependentsOf file = [] := by
  have hlookup : g.reverseDependencies.lookup file = none :=
    AList.lookup_eq_none.mpr fun hmem => h (List.mem_toFinset.mpr hmem)
  rw [dependentsOf, hlookup, Option.getD_none]

/-- Before anything is expanded, all dependents of a graph are left. -/
theorem unexpanded_nil (g : FileDependencyGraph) :
    unexpanded g.dependentsOf g.reverseDependencies.keys.toFinset [] = g.reverseDependencies.pairs.length := by
  rw [unexpanded, Finset.filter_true_of_mem fun _ _ => List.not_mem_nil]
  exact g.reverseDependencies.sum_length_lookup

/-- An invalidation ends. It invalidates some files one after another: the given one and files of
dependencies that were added, one for every path from which the given one is reached. -/
theorem invalidateWithDependents_eq (edges : List (PathBuf × PathBuf)) (file : PathBuf) (cache : FileLevelCache) :
    ∃ all : List PathBuf,
      (∀ fuel, edges.length < fuel →
        (new.addDependencies edges).invalidateWithDependents file cache fuel =
          some (all.foldr (fun file cache => cache.invalidateFile file) cache)) ∧
      (∀ path, pathComponents path ∈ all.map pathComponents ↔ (new.addDependencies edges).Reaches path file) ∧
      ∀ path ∈ all, path ∈ file :: edges.map Prod.fst := by
  have hleft := (new.addDependencies edges).unexpanded_nil
  rw [length_pairs_addDependencies] at hleft
  have hnone : (new.reverseDependencies.pairs).length = 0 := rfl
  have hbound : [file].length + unexpanded (new.addDependencies edges).dependentsOf
      (new.addDependencies edges).reverseDependencies.keys.toFinset (([] : List PathBuf).map pathComponents) ≤ edges.length + 1 := by
    rw [List.map_nil, hleft, List.length_singleton]
    omega
  obtain ⟨all, hall, hsearched⟩ := (Searched.start pathComponents (new.addDependencies edges).dependentsOf [file]).run
    (dependentsOf_eq_nil _) (edges.length + 1) hbound
  refine ⟨all, ?_, ?_, ?_⟩
  · intro fuel hfuel
    have hloop := (new.addDependencies edges).invalidateLoop_eq fuel [file] [] cache
    rw [worklist_mono hfuel hall] at hloop
    exact hloop
  · intro path
    rw [hsearched.mem_iff, Reaches, ← reflTransGen_swap]
    have hmirror := mirrored_new.addDependencies edges
    have hedge : Function.swap (new.addDependencies edges).DependsOn =
        Leads pathComponents (new.addDependencies edges).dependentsOf := by
      funext a b
      exact propext (hmirror b a)
    rw [hedge]
    simp
  · intro path hpath
    rcases hsearched.origin path hpath with hroot | ⟨k, hk⟩
    · exact List.mem_cons.mpr (Or.inl (List.mem_singleton.mp hroot))
    · rcases mem_dependentsOf_addDependencies hk with hnew | hadded
      · exact absurd hnew List.not_mem_nil
      · exact List.mem_cons_of_mem _ hadded

/-- An invalidation ends. No file from which the given one is reached is cached afterwards, if
the file has one spelling wherever it is named, and the others keep their artifacts, if their
keys are not those of files from which the given one is reached. -/
theorem invalidateWithDependents_exact (edges : List (PathBuf × PathBuf)) (file : PathBuf) (cache : FileLevelCache) :
    ∃ cache' : FileLevelCache,
      (∀ fuel, edges.length < fuel →
        (new.addDependencies edges).invalidateWithDependents file cache fuel = some cache') ∧
      (∀ path, (new.addDependencies edges).Reaches path file →
        (∀ spelling ∈ file :: edges.map Prod.fst, pathComponents spelling = pathComponents path → spelling = path) →
        cache'.isFileCached path = false) ∧
      ∀ path, ¬ (new.addDependencies edges).Reaches path file →
        (∀ named ∈ file :: edges.map Prod.fst, (new.addDependencies edges).Reaches named file →
          FileLevelCache.fileKey named ≠ FileLevelCache.fileKey path) →
        cache'.getFileArtifact path = cache.getFileArtifact path := by
  obtain ⟨all, hrun, hreached, hnamed⟩ := invalidateWithDependents_eq edges file cache
  refine ⟨_, hrun, ?_, ?_⟩
  · intro path hpath hspelling
    obtain ⟨spelling, hmem, hsame⟩ := List.mem_map.mp ((hreached path).mpr hpath)
    rw [← hspelling spelling (hnamed spelling hmem) hsame]
    exact FileLevelCache.isFileCached_foldr_of_mem hmem
  · intro path _ hkeys
    refine FileLevelCache.getFileArtifact_foldr_of_ne fun other hother => ?_
    exact hkeys other (hnamed other hother) ((hreached other).mp (List.mem_map_of_mem hother))

/-- The cached files `x//y` and `x\y`. -/
def spelledCache : FileLevelCache :=
  (FileLevelCache.new.cacheFile [120, 47, 47, 121] sampleArtifact).cacheFile [120, 92, 121] sampleArtifact

/-- To invalidate `x/y` leaves the same path cached as `x//y`, and takes the artifact of `x\y`,
which does not depend on it. -/
theorem not_exact_for_spellings :
    ∃ cache', new.invalidateWithDependents [120, 47, 121] spelledCache 1 = some cache' ∧
      (new.Reaches [120, 47, 47, 121] [120, 47, 121] ∧ cache'.isFileCached [120, 47, 47, 121] = true) ∧
      ¬ new.Reaches [120, 92, 121] [120, 47, 121] ∧
      spelledCache.getFileArtifact [120, 92, 121] = some sampleArtifact ∧
      cache'.getFileArtifact [120, 92, 121] = none := by
  refine ⟨spelledCache.invalidateFile [120, 47, 121], rfl, ⟨?_, by decide⟩, ?_, by decide, by decide⟩
  · have hsame : pathComponents [120, 47, 47, 121] = pathComponents [120, 47, 121] := by decide
    rw [Reaches, hsame]
  · intro hpath
    rcases hpath.cases_head with hsame | ⟨_, ⟨_, hmem, -⟩, -⟩
    · exact absurd hsame (by decide)
    · exact List.not_mem_nil hmem

end FileDependencyGraph

end Forge.Cache
