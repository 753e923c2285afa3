import Mathlib.Data.List.Induction
import Mathlib.Data.Multiset.Defs
import Mathlib.Logic.Function.Basic

/-!
# The symbols of a file that changed

The cache has the symbols of a file with the hashes of their bodies. New symbols are compared
with the cached ones by their names, where a name stands for its last symbol. So a change of
the earlier symbols of a name is missed.
-/

namespace Forge.Incremental.AstCache

/-- A symbol of a file. -/
structure AstSubTree where
  symbolName : String
  kind : String
  contentHash : String
  byteRange : ℕ × ℕ

/-- The symbols of files. -/
structure AstCacheIndex where
  fileTrees : String → Option (List AstSubTree)

/-- A cache without files. -/
def AstCacheIndex.new : AstCacheIndex := ⟨fun _ => none⟩

/-- Keep the symbols of a file. -/
def AstCacheIndex.recordFileSubtrees (cache : AstCacheIndex) (filePath : String) (subtrees : List AstSubTree) : AstCacheIndex :=
  ⟨Function.update cache.fileTrees filePath (some subtrees)⟩

/-- The hashes of symbols by their names, the last one first. -/
def oldMap (old : List AstSubTree) : List (String × String) :=
  (old.map fun s => (s.symbolName, s.contentHash)).reverse

/-- The names of the symbols that changed: those with another hash, and those that are gone. -/
def AstCacheIndex.computeChangedSymbols (cache : AstCacheIndex) (filePath : String) (newSubtrees : List AstSubTree) :
    List String :=
  match cache.fileTrees filePath with
  | none => newSubtrees.map AstSubTree.symbolName
  | some old =>
    (newSubtrees.filter fun s => (oldMap old).lookup s.symbolName ≠ some s.contentHash).map AstSubTree.symbolName ++
      (old.filter fun s => s.symbolName ∉ newSubtrees.map AstSubTree.symbolName).map AstSubTree.symbolName

/-- The hashes of the symbols with a name. -/
def hashesOf (name : String) (subtrees : List AstSubTree) : List String :=
  (subtrees.filter fun s => s.symbolName = name).map AstSubTree.contentHash

/-- The cached symbols of a file. -/
def AstCacheIndex.cached (cache : AstCacheIndex) (filePath : String) : List AstSubTree :=
  (cache.fileTrees filePath).getD []

/-- Every name whose hashes are others than before is reported. -/
def MissesNoChange (cache : AstCacheIndex) (filePath : String) (newSubtrees : List AstSubTree) : Prop :=
  ∀ name, (hashesOf name (cache.cached filePath) : Multiset String) ≠ hashesOf name newSubtrees →
    name ∈ cache.computeChangedSymbols filePath newSubtrees

/-- Where all new symbols of a name have the hash of its last cached one, there were as many, and all with this hash. -/
def EarlierAgree (old newSubtrees : List AstSubTree) : Prop :=
  ∀ name hash, (hashesOf name old).getLast? = some hash → hashesOf name newSubtrees ≠ [] →
    (∀ other ∈ hashesOf name newSubtrees, other = hash) →
      (hashesOf name old).length = (hashesOf name newSubtrees).length ∧ ∀ other ∈ hashesOf name old, other = hash

/-! ## What is reported -/

/-- A hash of a name is that of a symbol with this name. -/
theorem mem_hashesOf_iff {name hash : String} {subtrees : List AstSubTree} :
    hash ∈ hashesOf name subtrees ↔ ∃ s ∈ subtrees, s.symbolName = name ∧ s.contentHash = hash := by
  rw [hashesOf, List.mem_map]
  simp only [List.mem_filter, decide_eq_true_eq, and_assoc]

/-- A name has no hashes when no symbol has it. -/
theorem hashesOf_eq_nil_iff {name : String} {subtrees : List AstSubTree} :
    hashesOf name subtrees = [] ↔ name ∉ subtrees.map AstSubTree.symbolName := by
  rw [List.eq_nil_iff_forall_not_mem, List.mem_map]
  constructor
  · rintro hnone ⟨s, hs, hname⟩
    exact hnone s.contentHash (mem_hashesOf_iff.mpr ⟨s, hs, hname, rfl⟩)
  · intro hnone hash hhash
    obtain ⟨s, hs, hname, -⟩ := mem_hashesOf_iff.mp hhash
    exact hnone ⟨s, hs, hname⟩

/-- A further symbol adds its hash to those of its name. -/
theorem hashesOf_concat (name : String) (subtrees : List AstSubTree) (s : AstSubTree) :
    hashesOf name (subtrees ++ [s]) = hashesOf name subtrees ++ if s.symbolName = name then [s.contentHash] else [] := by
  rw [hashesOf, List.filter_append, List.map_append, ← hashesOf]
  congr 1
  by_cases hname : s.symbolName = name <;> simp [hname]

/-- A name stands for its last symbol. -/
theorem lookup_oldMap (old : List AstSubTree) (name : String) : (oldMap old).lookup name = (hashesOf name old).getLast? := by
  induction old using List.reverseRecOn with
  | nil => rfl
  | append_singleton old s ih =>
    have hmap : oldMap (old ++ [s]) = (s.symbolName, s.contentHash) :: oldMap old := by
      rw [oldMap, List.map_append, List.reverse_append]
      rfl
    rw [hmap, List.lookup_cons, hashesOf_concat]
    by_cases hname : name = s.symbolName
    · rw [hname, beq_self_eq_true, if_pos rfl, List.getLast?_concat]
    · rw [beq_false_of_ne hname, if_neg (Ne.symm hname), List.append_nil]
      exact ih

/-- A name is reported when some new symbol has another hash than the last cached one, or when it is gone. -/
theorem mem_computeChangedSymbols_iff {cache : AstCacheIndex} {filePath name : String} {newSubtrees : List AstSubTree} :
    name ∈ cache.computeChangedSymbols filePath newSubtrees ↔
      (∃ hash ∈ hashesOf name newSubtrees, (hashesOf name (cache.cached filePath)).getLast? ≠ some hash) ∨
        (hashesOf name (cache.cached filePath) ≠ [] ∧ hashesOf name newSubtrees = []) := by
  rw [AstCacheIndex.computeChangedSymbols, AstCacheIndex.cached]
  cases cache.fileTrees filePath with
  | none =>
    have hempty : hashesOf name ((none : Option (List AstSubTree)).getD []) = [] := rfl
    rw [hempty, or_iff_left fun h => h.1 rfl]
    constructor
    · intro hmem
      obtain ⟨s, hs, hname⟩ := List.mem_map.mp hmem
      exact ⟨s.contentHash, mem_hashesOf_iff.mpr ⟨s, hs, hname, rfl⟩, nofun⟩
    · rintro ⟨hash, hhash, -⟩
      obtain ⟨s, hs, hname, -⟩ := mem_hashesOf_iff.mp hhash
      exact List.mem_map.mpr ⟨s, hs, hname⟩
  | some old =>
    rw [Option.getD_some, List.mem_append]
    refine or_congr ?_ ?_
    · simp only [List.mem_map, List.mem_filter, decide_eq_true_eq, lookup_oldMap, mem_hashesOf_iff]
      constructor
      · rintro ⟨s, ⟨hs, hne⟩, rfl⟩
        exact ⟨s.contentHash, ⟨s, hs, rfl, rfl⟩, hne⟩
      · rintro ⟨-, ⟨s, hs, rfl, rfl⟩, hne⟩
        exact ⟨s, ⟨hs, hne⟩, rfl⟩
    · rw [Ne, hashesOf_eq_nil_iff, hashesOf_eq_nil_iff, not_not, List.mem_map, List.mem_map]
      simp only [List.mem_filter, decide_eq_true_eq]
      constructor
      · rintro ⟨s, ⟨hs, hgone⟩, rfl⟩
        exact ⟨⟨s, hs, rfl⟩, hgone⟩
      · rintro ⟨⟨s, hs, rfl⟩, hgone⟩
        exact ⟨s, ⟨hs, hgone⟩, rfl⟩

/-- No change is missed exactly when the earlier symbols of every name agree with the last one. -/
theorem missesNoChange_iff (cache : AstCacheIndex) (filePath : String) (newSubtrees : List AstSubTree) :
    MissesNoChange cache filePath newSubtrees ↔ EarlierAgree (cache.cached filePath) newSubtrees := by
  constructor
  · intro h name hash hlast hnew hsame
    have hequal : (hashesOf name (cache.cached filePath) : Multiset String) = hashesOf name newSubtrees := by
      by_contra hne
      rcases mem_computeChangedSymbols_iff.mp (h name hne) with ⟨other, hother, hdiffers⟩ | ⟨-, hgone⟩
      · exact hdiffers (hsame other hother ▸ hlast)
      · exact hnew hgone
    have hperm := Multiset.coe_eq_coe.mp hequal
    exact ⟨hperm.length_eq, fun other hother => hsame other (hperm.subset hother)⟩
  · intro h name hne
    by_contra hmissed
    rw [mem_computeChangedSymbols_iff, not_or] at hmissed
    obtain ⟨hsame, hthere⟩ := hmissed
    cases hnew : hashesOf name newSubtrees with
    | nil =>
      refine hne (congrArg _ ?_)
      rw [hnew]
      by_contra hold
      exact hthere ⟨hold, hnew⟩
    | cons hash rest =>
      have hlasts : ∀ other ∈ hashesOf name newSubtrees, (hashesOf name (cache.cached filePath)).getLast? = some other := by
        intro other hother
        by_contra hdiffers
        exact hsame ⟨other, hother, hdiffers⟩
      have hlast := hlasts hash (hnew ▸ List.mem_cons_self)
      have hall : ∀ other ∈ hashesOf name newSubtrees, other = hash :=
        fun other hother => Option.some.inj ((hlasts other hother).symm.trans hlast)
      obtain ⟨hlength, hold⟩ := h name hash hlast (hnew ▸ List.cons_ne_nil hash rest) hall
      refine hne (congrArg _ ?_)
      rw [List.eq_replicate_of_mem hold, List.eq_replicate_of_mem hall, hlength]

/-- A symbol of a name that two symbols had is gone, which is not reported. -/
theorem not_missesNoChange_overload :
    ¬ MissesNoChange (AstCacheIndex.new.recordFileSubtrees "a.rs" [⟨"new", "fn", "h1", (0, 1)⟩, ⟨"new", "fn", "h2", (2, 3)⟩])
      "a.rs" [⟨"new", "fn", "h2", (2, 3)⟩] := by
  intro h
  have hmem := h "new" (by decide)
  revert hmem
  decide

end Forge.Incremental.AstCache
