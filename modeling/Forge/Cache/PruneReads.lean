import Forge.Cache.Prune

/-!
# What pruning reads

Pruning reads before it removes. As long as nothing is removed, what it learns comes from the files as
they are: the records, how many of them refer to each object, and the objects by age.
-/

namespace Forge.Cache

open Forge.Common

/-- Sorting changes nothing but the order. -/
theorem sortByKey_perm {α : Type} (key : α → ℤ) (l : List α) : (sortByKey key l).Perm l := List.perm_insertionSort _ l

/-- What is sorted is in order. -/
theorem sortByKey_sorted {α : Type} (key : α → ℤ) (l : List α) : (sortByKey key l).Pairwise fun a b => key a ≤ key b := by
  have htotal : Std.Total fun a b : α => key a ≤ key b := ⟨fun _ _ => le_total _ _⟩
  have htrans : IsTrans α fun a b : α => key a ≤ key b := ⟨fun _ _ _ => le_trans⟩
  exact List.pairwise_insertionSort _ l

/-- The files as pruning sees them: the lists of files, their contents, and what is known without reading. -/
structure DiskView where
  entries : CacheDir → List CachePath
  contents : CachePath → Option Bytes
  stat : CachePath → Option FileStat

/-- Listing, reading and asking in a state show the files and leave the state. -/
structure Shows {σ : Type} (semantics : (op : PruneOp) → σ → op.Response × σ) (s : σ) (view : DiskView) : Prop where
  list : ∀ dir, semantics (.list dir) s = (view.entries dir, s)
  read : ∀ path, semantics (.read path) s = (view.contents path, s)
  stat : ∀ path, semantics (.stat path) s = (view.stat path, s)

namespace DiskView

variable (codec : RecordCodec) (view : DiskView)

/-- The record in a file. -/
def recordIn (path : CachePath) : Option CacheRecord :=
  if extension path.name = some "json" then
    (view.contents path).bind fun bytes => (codec.fromSlice bytes).map fun record =>
      ⟨record.key.getD (legacyKey path), record.fingerprint, record.storedAt, path, bytes.length, record.artifactHash⟩
  else none

/-- All records. -/
def records : List CacheRecord := (view.entries .fingerprints).filterMap (view.recordIn codec)

/-- The objects, the oldest first. -/
def oldestObjects : List CachePath :=
  (sortByKey Prod.snd ((view.entries .objects).map fun path =>
    (path, ((view.stat path).map FileStat.modified).getD 0))).map Prod.fst

/-- How old a file is. -/
def fileAgeSecs (path : CachePath) (now : ℕ) : Option ℕ :=
  (view.stat path).bind fun stat => if stat.modified < 0 then none else some (now - stat.modified.toNat / 10 ^ 9)

/-- The size of a file, or nothing if it is gone. -/
def sizeOf (path : CachePath) : ℕ := ((view.stat path).map FileStat.len).getD 0

/-- The objects are those that are listed. -/
theorem oldestObjects_perm : view.oldestObjects.Perm (view.entries .objects) := by
  rw [oldestObjects]
  refine ((sortByKey_perm _ _).map Prod.fst).trans ?_
  rw [List.map_map]
  exact List.Perm.of_eq (List.map_id _)

end DiskView

/-- How many records refer to each object. -/
def countRefs (found : List CacheRecord) : RefCounts :=
  found.foldl (fun counts record =>
    match record.artifactHash with
    | some hash => counts.insert hash ((counts.lookup hash).getD 0 + 1)
    | none => counts) ∅

/-- The count of an object is the number of records that refer to it. -/
theorem lookup_countRefs (found : List CacheRecord) (hash : String) :
    ((countRefs found).lookup hash).getD 0 = found.countP fun record => decide (record.artifactHash = some hash) := by
  have hfold : ∀ counts : RefCounts, ((found.foldl (fun counts record =>
      match record.artifactHash with
      | some hash => counts.insert hash ((counts.lookup hash).getD 0 + 1)
      | none => counts) counts).lookup hash).getD 0 =
        (counts.lookup hash).getD 0 + found.countP fun record => decide (record.artifactHash = some hash) := by
    induction found with
    | nil => exact fun _ => rfl
    | cons record found ih =>
      intro counts
      rw [List.foldl_cons, ih, List.countP_cons]
      cases hrecord : record.artifactHash with
      | none => simp
      | some other =>
        by_cases hother : hash = other
        · subst hother
          simp only [AList.lookup_insert, Option.getD_some, decide_true, if_true]
          omega
        · have hne : other ≠ hash := fun h => hother h.symm
          simp [AList.lookup_insert_ne hother, hne]
  rw [countRefs, hfold]
  exact Nat.zero_add _

/-! ## Programs that read -/

section Runs

variable {σ : Type} {semantics : (op : PruneOp) → σ → op.Response × σ} {s : σ} {view : DiskView} (codec : RecordCodec)

/-- Reading a list of files gives the records in them. -/
theorem run_readRecordFiles (hshows : Shows semantics s view) (paths : List CachePath) :
    (readRecordFiles codec paths).run semantics s = (paths.filterMap (view.recordIn codec), s) := by
  have hone : ∀ path, (readRecordFile codec path).run semantics s = (view.recordIn codec path, s) := by
    intro path
    rw [readRecordFile, DiskView.recordIn]
    by_cases hjson : extension path.name = some "json"
    · rw [if_neg (not_not_intro hjson), if_pos hjson]
      change Program.run semantics (readFile path >>= _) s = _
      rw [Program.run_bind, readFile, Program.perform, Program.run, hshows.read path, Program.run]
      dsimp only
      cases view.contents path with
      | none => rfl
      | some bytes =>
        dsimp only [Option.bind_some]
        cases codec.fromSlice bytes with
        | none => rfl
        | some record => rfl
    · rw [if_pos hjson, if_neg hjson]
      rfl
  induction paths with
  | nil => rfl
  | cons path paths ih =>
    rw [readRecordFiles, Program.run_bind, hone, Program.run_bind, ih]
    dsimp only
    cases hrecord : view.recordIn codec path with
    | none =>
      rw [List.filterMap_cons_none hrecord]
      rfl
    | some record =>
      rw [List.filterMap_cons_some hrecord]
      rfl

/-- All records are read. -/
theorem run_records (hshows : Shows semantics s view) :
    (records codec).run semantics s = (view.records codec, s) := by
  rw [records, Program.run_bind, walkFiles, Program.perform, Program.run, hshows.list, Program.run]
  exact run_readRecordFiles codec hshows _

/-- References are counted. -/
theorem run_refCounts (hshows : Shows semantics s view) :
    (refCounts codec).run semantics s = (countRefs (view.records codec), s) := by
  rw [refCounts, Program.run_bind, run_records codec hshows]
  rfl

/-- The age of a file is found out. -/
theorem run_fileAgeSecs (hshows : Shows semantics s view) (path : CachePath) (now : ℕ) :
    (fileAgeSecs path now).run semantics s = (view.fileAgeSecs path now, s) := by
  rw [fileAgeSecs, Program.run_bind, fileMetadata, Program.perform, Program.run, hshows.stat, Program.run,
    DiskView.fileAgeSecs]
  dsimp only
  cases view.stat path with
  | none => rfl
  | some stat =>
    dsimp only [Option.bind_some]
    split
    · rfl
    · rfl

/-- The objects are put in order. -/
theorem run_oldestObjects (hshows : Shows semantics s view) :
    oldestObjects.run semantics s = (view.oldestObjects, s) := by
  have hstats : ∀ paths : List CachePath, (statFiles paths).run semantics s =
      (paths.map fun path => (path, ((view.stat path).map FileStat.modified).getD 0), s) := by
    intro paths
    induction paths with
    | nil => rfl
    | cons path paths ih =>
      rw [statFiles, Program.run_bind, fileMetadata, Program.perform, Program.run, hshows.stat, Program.run,
        Program.run_bind, ih]
      rfl
  rw [oldestObjects, Program.run_bind, walkFiles, Program.perform, Program.run, hshows.list, Program.run,
    Program.run_bind, hstats]
  rfl

/-- The sizes of the objects that were not removed are added up. -/
theorem run_totalSize (hshows : Shows semantics s view) (st : PruneState) (paths : List CachePath) :
    (totalSize st paths).run semantics s =
      (((paths.filter fun path => decide (path ∉ st.removed)).map view.sizeOf).sum, s) := by
  induction paths with
  | nil => rfl
  | cons path paths ih =>
    rw [totalSize]
    by_cases hremoved : path ∈ st.removed
    · rw [if_pos hremoved, ih, List.filter_cons_of_neg (by simpa using hremoved)]
    · rw [if_neg hremoved, Program.run_bind, fileMetadata, Program.perform, Program.run, hshows.stat, Program.run,
        Program.run_bind, ih, List.filter_cons_of_pos (by simpa using hremoved)]
      rfl

end Runs

end Forge.Cache
