import Mathlib.Data.List.AList

/-!
# Files

The files of a file system by their paths, and how a file is written: to a temporary name
first, and renamed into place.
-/

namespace Forge.Common

/-- The contents of a file. -/
abbrev Bytes := List UInt8

variable {π : Type*} [DecidableEq π]

/-- The files by their paths. -/
abbrev Files (π : Type*) := AList fun _ : π => Bytes

namespace Files

/-- Leave a file with the given contents, if there are any. -/
def leave (files : Files π) (path : π) : Option Bytes → Files π
  | some bytes => files.insert path bytes
  | none => files

/-- Rename a file, over the file that had the name before. -/
def rename (files : Files π) (src dst : π) : Option (Files π) :=
  (files.lookup src).map fun bytes => AList.insert dst bytes (files.erase src)

/-- Leaving a file leaves the others. -/
theorem leave_lookup (files : Files π) {path other : π} (hother : other ≠ path) (left : Option Bytes) :
    (leave files path left).lookup other = files.lookup other := by
  cases left with
  | none => rfl
  | some bytes => exact AList.lookup_insert_ne hother

/-- Renaming a file that was just written puts its contents in place. -/
theorem rename_insert (files : Files π) (src dst : π) (bytes : Bytes) :
    rename (AList.insert src bytes files) src dst =
      some (AList.insert dst bytes ((AList.insert src bytes files).erase src)) := by
  rw [rename, AList.lookup_insert, Option.map_some]

/-- The files after a rename, other than the two it is about. -/
theorem lookup_insert_erase (files : Files π) {src dst other : π} (hsrc : other ≠ src)
    (hdst : other ≠ dst) (bytes : Bytes) :
    (AList.insert dst bytes (files.erase src)).lookup other = files.lookup other := by
  rw [AList.lookup_insert_ne hdst, AList.lookup_erase_ne hsrc]

end Files

end Forge.Common
