import Forge.Common.Histories
import Mathlib.Data.Finset.Insert
import Mathlib.Logic.Function.Basic

/-!
# The snapshot of a tree of files

A snapshot has an entry for each file of which it was told, and the paths that changed since
the last flush. The entry of a deleted file stays. So a file that comes back after a flush,
as it was before it was deleted, does not look changed.
-/

namespace Forge.Incremental.VfsSnapshot

open Forge.Common

/-- What happened to a file since the last flush. -/
inductive VfsNodeState where
  | clean
  | modified
  | deleted
  | created
deriving DecidableEq

/-- What is known of a file. -/
structure VfsFileEntry (P : Type*) where
  path : P
  size : UInt64
  mtime : ℤ
  contentHash : String
  state : VfsNodeState

/-- The files of which the snapshot was told, and those that changed. -/
structure VfsSnapshotTree (P : Type*) where
  root : P
  entries : P → Option (VfsFileEntry P)
  dirtyPaths : Finset P

variable {P : Type*}

/-- A snapshot without files. -/
def VfsSnapshotTree.new (root : P) : VfsSnapshotTree P := ⟨root, fun _ => none, ∅⟩

/-- Whether a file is not as the snapshot has it. -/
def VfsSnapshotTree.isChanged (tree : VfsSnapshotTree P) (path : P) (size : UInt64) (hash : String) : Bool :=
  match tree.entries path with
  | some existing => existing.size ≠ size || existing.contentHash ≠ hash
  | none => true

/-- The size and hash of a file that is there. -/
abbrev Status := Option (UInt64 × String)

/-- The size and the hash of the entry of a file. -/
def VfsSnapshotTree.stored (tree : VfsSnapshotTree P) (path : P) : Status :=
  (tree.entries path).map fun entry => (entry.size, entry.contentHash)

/-- A file is changed when its size or its hash is not the stored one. -/
theorem isChanged_iff {tree : VfsSnapshotTree P} {path : P} {size : UInt64} {hash : String} :
    tree.isChanged path size hash = true ↔ tree.stored path ≠ some (size, hash) := by
  rw [VfsSnapshotTree.isChanged, VfsSnapshotTree.stored]
  cases tree.entries path with
  | none => exact iff_of_true rfl nofun
  | some existing =>
    simp only [Bool.or_eq_true, decide_eq_true_eq, Option.map_some, ne_eq, Option.some.injEq, Prod.mk.injEq]
    tauto

variable [DecidableEq P]

/-- A file is there. -/
def VfsSnapshotTree.insertOrUpdate (tree : VfsSnapshotTree P) (path : P) (size : UInt64) (mtime : ℤ) (hash : String) :
    VfsSnapshotTree P :=
  if tree.isChanged path size hash then
    { tree with
      dirtyPaths := insert path tree.dirtyPaths
      entries := Function.update tree.entries path
        (some ⟨path, size, mtime, hash, if (tree.entries path).isNone then .created else .modified⟩) }
  else tree

/-- A file is not there any more. -/
def VfsSnapshotTree.markDeleted (tree : VfsSnapshotTree P) (path : P) : VfsSnapshotTree P :=
  match tree.entries path with
  | some entry =>
    { tree with
      entries := Function.update tree.entries path (some { entry with state := .deleted })
      dirtyPaths := insert path tree.dirtyPaths }
  | none => tree

/-- No file has changed from now on. -/
def VfsSnapshotTree.flushClean (tree : VfsSnapshotTree P) : VfsSnapshotTree P :=
  { tree with
    entries := fun path =>
      (tree.entries path).map fun entry => if path ∈ tree.dirtyPaths then { entry with state := .clean } else entry
    dirtyPaths := ∅ }

/-- A call of the snapshot. -/
inductive VfsCall (P : Type*) where
  | insertOrUpdate (path : P) (size : UInt64) (mtime : ℤ) (hash : String)
  | markDeleted (path : P)
  | flushClean

/-- The snapshot behind a call. -/
def VfsSnapshotTree.call (tree : VfsSnapshotTree P) : VfsCall P → VfsSnapshotTree P
  | .insertOrUpdate path size mtime hash => tree.insertOrUpdate path size mtime hash
  | .markDeleted path => tree.markDeleted path
  | .flushClean => tree.flushClean

/-- The snapshot behind calls. -/
def after (root : P) (history : List (VfsCall P)) : VfsSnapshotTree P :=
  history.foldl VfsSnapshotTree.call (.new root)

/-! ## What the snapshot was told -/

/-- The files as they are, and as they were at the last flush. -/
structure Told (P : Type*) where
  now : P → Status
  flushed : P → Status

/-- What a call tells. -/
def Told.call (told : Told P) : VfsCall P → Told P
  | .insertOrUpdate path size _ hash => { told with now := Function.update told.now path (some (size, hash)) }
  | .markDeleted path => { told with now := Function.update told.now path none }
  | .flushClean => { told with flushed := told.now }

/-- What calls tell. -/
def told (history : List (VfsCall P)) : Told P := history.foldl Told.call ⟨fun _ => none, fun _ => none⟩

/-- Every file that is not as it was at the last flush is dirty. -/
def MissesNothing (root : P) (history : List (VfsCall P)) : Prop :=
  ∀ path, (told history).now path ≠ (told history).flushed path → path ∈ (after root history).dirtyPaths

/-- A call for a file that is not there and not dirty, with the size and the hash that its entry still has. -/
def Revives (root : P) (history : List (VfsCall P)) : VfsCall P → Prop
  | .insertOrUpdate path size _ hash =>
    (told history).now path = none ∧ path ∉ (after root history).dirtyPaths ∧
      (after root history).stored path = some (size, hash)
  | _ => False

/-! ## The calls -/

variable (root : P)

/-- The snapshot behind one more call. -/
theorem after_concat (history : List (VfsCall P)) (call : VfsCall P) :
    after root (history ++ [call]) = (after root history).call call :=
  List.foldl_concat _ _ _ _

/-- What one more call tells. -/
theorem told_concat (history : List (VfsCall P)) (call : VfsCall P) : told (history ++ [call]) = (told history).call call :=
  List.foldl_concat _ _ _ _

/-- A file that is there is stored, and it is dirty from now on if it was stored otherwise. -/
theorem insertOrUpdate_cases (tree : VfsSnapshotTree P) (path : P) (size : UInt64) (mtime : ℤ) (hash : String) :
    (tree.stored path = some (size, hash) ∧ tree.insertOrUpdate path size mtime hash = tree) ∨
      (tree.stored path ≠ some (size, hash) ∧
        (tree.insertOrUpdate path size mtime hash).dirtyPaths = insert path tree.dirtyPaths ∧
        (tree.insertOrUpdate path size mtime hash).stored = Function.update tree.stored path (some (size, hash))) := by
  rw [VfsSnapshotTree.insertOrUpdate]
  split
  · rename_i hchanged
    refine Or.inr ⟨isChanged_iff.mp hchanged, rfl, funext fun other => ?_⟩
    rw [VfsSnapshotTree.stored]
    dsimp only
    rw [Function.update_apply, Function.update_apply]
    split <;> rfl
  · rename_i hsame
    exact Or.inl ⟨of_not_not fun hne => hsame (isChanged_iff.mpr hne), rfl⟩

/-- A deleted file stays stored, and is dirty if it was stored. -/
theorem markDeleted_cases (tree : VfsSnapshotTree P) (path : P) :
    (tree.stored path = none ∧ tree.markDeleted path = tree) ∨
      ((tree.markDeleted path).dirtyPaths = insert path tree.dirtyPaths ∧
        (tree.markDeleted path).stored = tree.stored) := by
  rw [VfsSnapshotTree.markDeleted]
  split
  · rename_i entry hentry
    refine Or.inr ⟨rfl, funext fun other => ?_⟩
    rw [VfsSnapshotTree.stored]
    dsimp only
    rw [Function.update_apply]
    split
    · rename_i heq
      rw [heq, VfsSnapshotTree.stored, hentry]
      rfl
    · rfl
  · rename_i hnone
    refine Or.inl ⟨?_, rfl⟩
    rw [VfsSnapshotTree.stored, hnone]
    rfl

/-- A flush leaves what is stored. -/
theorem flushClean_stored (tree : VfsSnapshotTree P) : tree.flushClean.stored = tree.stored := by
  funext path
  rw [VfsSnapshotTree.stored, VfsSnapshotTree.stored, VfsSnapshotTree.flushClean, Option.map_map]
  congr 1
  funext entry
  rw [Function.comp_apply]
  split <;> rfl

/-! ## What is missed -/

/-- Nothing is missed, and a file that is there is stored as it is. -/
structure Inv (history : List (VfsCall P)) : Prop where
  dirty : MissesNothing root history
  stored : ∀ path status, (told history).now path = some status → (after root history).stored path = some status

/-- A snapshot without files misses nothing. -/
theorem inv_nil : Inv root ([] : List (VfsCall P)) where
  dirty := fun _ hne => absurd rfl hne
  stored := fun _ _ hnow => absurd hnow nofun

/-- A file that is stored as it was, and was not revived, is as it was. -/
theorem now_eq_of_stored {history : List (VfsCall P)} (h : Inv root history) {path : P} {size : UInt64} {mtime : ℤ}
    {hash : String} (hsame : (after root history).stored path = some (size, hash))
    (hclean : path ∉ (after root history).dirtyPaths) (hrevives : ¬ Revives root history (.insertOrUpdate path size mtime hash)) :
    (told history).now path = some (size, hash) := by
  cases hnow : (told history).now path with
  | none => exact absurd ⟨hnow, hclean, hsame⟩ hrevives
  | some status => rw [← h.stored path status hnow, hsame]

/-- A call that tells nothing new and leaves the snapshot misses nothing. -/
theorem Inv.of_same {history : List (VfsCall P)} (h : Inv root history) {call : VfsCall P}
    (htold : told (history ++ [call]) = told history) (htree : after root (history ++ [call]) = after root history) :
    Inv root (history ++ [call]) := by
  refine ⟨fun path hne => ?_, fun path status hnow => ?_⟩
  · rw [htold] at hne
    rw [htree]
    exact h.dirty path hne
  · rw [htold] at hnow
    rw [htree]
    exact h.stored path status hnow

/-- A call that tells of a file, after which the file is dirty and stored as it is, if it is there, misses nothing. -/
theorem Inv.of_dirty {history : List (VfsCall P)} (h : Inv root history) {call : VfsCall P} {path : P} {status : Status}
    (htold : told (history ++ [call]) = { told history with now := Function.update (told history).now path status })
    (hdirty : (after root (history ++ [call])).dirtyPaths = insert path (after root history).dirtyPaths)
    (hstored : status ≠ none → (after root (history ++ [call])).stored path = status)
    (hother : ∀ other ≠ path, (after root (history ++ [call])).stored other = (after root history).stored other) :
    Inv root (history ++ [call]) := by
  refine ⟨fun other hne => ?_, fun other status' hnow => ?_⟩
  · rw [hdirty, Finset.mem_insert]
    rw [htold] at hne
    dsimp only at hne
    by_cases hpath : other = path
    · exact Or.inl hpath
    · rw [Function.update_of_ne hpath] at hne
      exact Or.inr (h.dirty other hne)
  · rw [htold] at hnow
    dsimp only at hnow
    by_cases hpath : other = path
    · rw [hpath, Function.update_self] at hnow
      rw [hpath, hstored (hnow ▸ nofun), hnow]
    · rw [Function.update_of_ne hpath] at hnow
      rw [hother other hpath]
      exact h.stored other status' hnow

/-- A file that is there and was not revived is dirty, or is as it was. -/
theorem Inv.insertOrUpdate {history : List (VfsCall P)} (h : Inv root history) {path : P} {size : UInt64} {mtime : ℤ}
    {hash : String} (hrevives : ¬ Revives root history (.insertOrUpdate path size mtime hash)) :
    Inv root (history ++ [.insertOrUpdate path size mtime hash]) := by
  have htold : told (history ++ [.insertOrUpdate path size mtime hash]) =
      { told history with now := Function.update (told history).now path (some (size, hash)) } := told_concat _ _
  have hafter : after root (history ++ [.insertOrUpdate path size mtime hash]) =
      (after root history).insertOrUpdate path size mtime hash := after_concat root _ _
  rcases insertOrUpdate_cases (after root history) path size mtime hash with ⟨hsame, htree⟩ | ⟨-, hdirty, hstored⟩
  · by_cases hmem : path ∈ (after root history).dirtyPaths
    · refine h.of_dirty root htold ?_ (fun _ => ?_) fun other _ => ?_
      · rw [hafter, htree, Finset.insert_eq_of_mem hmem]
      · rw [hafter, htree, hsame]
      · rw [hafter, htree]
    · refine h.of_same root ?_ (hafter.trans htree)
      rw [htold, Function.update_eq_self_iff.mpr (now_eq_of_stored root h hsame hmem hrevives).symm]
  · refine h.of_dirty root htold ?_ (fun _ => ?_) fun other hother => ?_
    · rw [hafter, hdirty]
    · rw [hafter, hstored, Function.update_self]
    · rw [hafter, hstored, Function.update_of_ne hother]

/-- A deleted file is dirty, or was not there. -/
theorem Inv.markDeleted {history : List (VfsCall P)} (h : Inv root history) (path : P) :
    Inv root (history ++ [.markDeleted path]) := by
  have htold : told (history ++ [.markDeleted path]) =
      { told history with now := Function.update (told history).now path none } := told_concat _ _
  have hafter : after root (history ++ [.markDeleted path]) = (after root history).markDeleted path := after_concat root _ _
  rcases markDeleted_cases (after root history) path with ⟨hnone, htree⟩ | ⟨hdirty, hstored⟩
  · have hnow : (told history).now path = none := by
      cases hstatus : (told history).now path with
      | none => rfl
      | some status => exact absurd (hnone.symm.trans (h.stored path status hstatus)) nofun
    refine h.of_same root ?_ (hafter.trans htree)
    rw [htold, Function.update_eq_self_iff.mpr hnow.symm]
  · refine h.of_dirty root htold ?_ (fun hne => absurd rfl hne) fun other _ => ?_
    · rw [hafter, hdirty]
    · rw [hafter, hstored]

/-- Behind a flush every file is as it was at the last flush. -/
theorem Inv.flushClean {history : List (VfsCall P)} (h : Inv root history) : Inv root (history ++ [.flushClean]) := by
  have htold : told (history ++ [.flushClean]) = { told history with flushed := (told history).now } := told_concat _ _
  have hafter : after root (history ++ [.flushClean]) = (after root history).flushClean := after_concat root _ _
  refine ⟨fun path hne => absurd ?_ hne, fun path status hnow => ?_⟩
  · rw [htold]
  · rw [htold] at hnow
    rw [hafter, flushClean_stored]
    exact h.stored path status hnow

/-- A file that is revived is missed. -/
theorem not_revives {history : List (VfsCall P)} (h : Inv root history) {call : VfsCall P}
    (hcall : MissesNothing root (history ++ [call])) : ¬ Revives root history call := by
  cases call with
  | insertOrUpdate path size mtime hash =>
    rintro ⟨hnow, hclean, hsame⟩
    have hflushed : (told history).flushed path = none := by
      by_contra hne
      exact hclean (h.dirty path fun heq => hne (heq ▸ hnow))
    have hdirty := hcall path
    rcases insertOrUpdate_cases (after root history) path size mtime hash with ⟨-, htree⟩ | ⟨hne, -⟩
    · rw [after_concat, VfsSnapshotTree.call, htree, told_concat, Told.call] at hdirty
      dsimp only at hdirty
      rw [Function.update_self, hflushed] at hdirty
      exact hclean (hdirty nofun)
    · exact hne hsame
  | markDeleted path => exact not_false
  | flushClean => exact not_false

/-- Every file that changed is dirty along a run exactly when no call revives a file: one that
is not there and not dirty, with the size and the hash that its entry still has. -/
theorem missesNothing_iff (calls : List (VfsCall P)) :
    (∀ history, history <+: calls → MissesNothing root history) ↔
      ∀ history call, history ++ [call] <+: calls → ¬ Revives root history call := by
  refine forall_prefix_iff_steps (Inv root) (MissesNothing root) (fun history call => ¬ Revives root history call) (inv_nil root)
    (fun history call h hrevives => ?_) (fun _ h => h.dirty) (fun _ _ h hcall => not_revives root h hcall) calls
  cases call with
  | insertOrUpdate path size mtime hash => exact h.insertOrUpdate root hrevives
  | markDeleted path => exact h.markDeleted root path
  | flushClean => exact h.flushClean root

/-- A file that was deleted and comes back as it was, with a flush between, is not dirty. -/
theorem not_missesNothing_revived :
    ¬ MissesNothing "ws" [.insertOrUpdate "ws/a.rs" 1 0 "h", .markDeleted "ws/a.rs", .flushClean,
      .insertOrUpdate "ws/a.rs" 1 0 "h"] := by
  intro h
  exact absurd (h "ws/a.rs" (by decide)) (by decide)

end Forge.Incremental.VfsSnapshot
