import Forge.Common.Text
import Mathlib.Data.Finset.Insert

/-!
# Imports found in sources

The imports of a Go source are found line by line. A line opens a block of imports, closes
one, is a path in a block, or is an import by itself.
-/

namespace Forge.Incremental.Inference

open Forge.Common

/-- The paths that were found, and whether a block of imports is open. -/
structure Scan where
  deps : Finset (List Char)
  inImportBlock : Bool

/-- A path without its quotes. -/
def clean (s : List Char) : List Char := trim (trimMatches (· == '"') s)

/-- Find a path, unless it is empty. -/
def Scan.add (scan : Scan) (s : List Char) : Scan :=
  if clean s = [] then scan else { scan with deps := insert (clean s) scan.deps }

/-- Read a line. -/
def scanLine (scan : Scan) (line : List Char) : Scan :=
  let trimmed := trim line
  if trimmed = "import (".toList then { scan with inImportBlock := true }
  else if scan.inImportBlock then
    if trimmed = [')'] then { scan with inImportBlock := false } else scan.add trimmed
  else
    match stripPrefix "import ".toList trimmed with
    | some stripped => scan.add (trim stripped)
    | none => scan

/-- The imports of a Go source. -/
def inferGoImports (source : List Char) : Finset (List Char) := ((lines source).foldl scanLine ⟨∅, false⟩).deps

example : inferGoImports "package main\nimport \"a\"\nimport (\n\t\"b\"\n)\n".toList = {"a".toList, "b".toList} := by decide

/-! ## Lines -/

/-- A line without text is skipped. -/
theorem scanLine_nil (scan : Scan) : scanLine scan [] = scan := by
  rw [scanLine]
  cases hblock : scan.inImportBlock with
  | false => rfl
  | true =>
    change scan.add [] = scan
    rfl

/-- A line is read by its trimmed text. -/
theorem scanLine_congr (scan : Scan) {line line' : List Char} (h : trim line = trim line') :
    scanLine scan line = scanLine scan line' := by
  rw [scanLine, scanLine, h]

/-- A source is read as the pieces between its line feeds. -/
theorem inferGoImports_eq (source : List Char) :
    inferGoImports source = ((source.splitOn '\n').foldl scanLine ⟨∅, false⟩).deps := by
  have hreturn : ∀ (pieces : List (List Char)) (scan : Scan),
      (pieces.map dropReturn).foldl scanLine scan = pieces.foldl scanLine scan := by
    intro pieces
    induction pieces with
    | nil => exact fun _ => rfl
    | cons piece pieces ih =>
      intro scan
      rw [List.map_cons, List.foldl_cons, List.foldl_cons, ih, scanLine_congr scan (trim_dropReturn piece)]
  have hne := List.splitOn_ne_nil '\n' source
  rw [inferGoImports, lines]
  conv_rhs => rw [← List.dropLast_append_getLast hne]
  rw [List.foldl_append, List.foldl_append, hreturn, List.getLast?_eq_getLast_of_ne_nil hne]
  cases (source.splitOn '\n').getLast hne with
  | nil => rw [List.foldl_cons, scanLine_nil]
  | cons c line => rfl

/-- A path that is found is kept. -/
theorem deps_subset_add (scan : Scan) (s : List Char) : scan.deps ⊆ (scan.add s).deps := by
  rw [Scan.add]
  split
  · exact Finset.Subset.refl _
  · exact Finset.subset_insert _ _

/-- A line keeps the paths that were found. -/
theorem deps_subset_scanLine (scan : Scan) (line : List Char) : scan.deps ⊆ (scanLine scan line).deps := by
  rw [scanLine]
  split
  · exact Finset.Subset.refl _
  · split
    · split
      · exact Finset.Subset.refl _
      · exact deps_subset_add _ _
    · split
      · exact deps_subset_add _ _
      · exact Finset.Subset.refl _

/-- Lines keep the paths that were found. -/
theorem deps_subset_foldl (lines : List (List Char)) (scan : Scan) : scan.deps ⊆ (lines.foldl scanLine scan).deps := by
  induction lines generalizing scan with
  | nil => exact Finset.Subset.refl _
  | cons line lines ih => exact (deps_subset_scanLine scan line).trans (ih _)

end Forge.Incremental.Inference
