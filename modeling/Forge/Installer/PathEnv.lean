import Forge.Common.Text
import Mathlib.Data.List.AList
import Mathlib.Data.List.DropRight
import Mathlib.Tactic.Common

/-!
# The search path in the startup files of a shell

On Unix an entry is put on the search path with a line that is appended to each startup file in
which the entry does not occur. It is taken off by writing each file in which it occurs again,
without the lines in which it occurs.

A file is written again from its lines. So a carriage return at the end of a line is lost, and
a line that has the entry as a part of something else is lost with it.
-/

namespace Forge.Installer

open Forge.Common

/-- The files by their paths, with their text. -/
abbrev TextFiles := AList fun _ : String => List Char

/-- The startup files of a home directory. -/
def rcFiles (home : String) : List String := [home ++ "/.bashrc", home ++ "/.zshrc", home ++ "/.profile"]

/-- The line that puts an entry on the search path. -/
def exportLine (entry : List Char) : List Char := "export PATH=\"".toList ++ entry ++ ":$PATH\"".toList

/-- The text of a file with an entry on the search path, unless the file stays as it is. -/
def addEntry (entry content : List Char) : Option (List Char) :=
  if entry <:+: content then none else some (content ++ '\n' :: (exportLine entry ++ ['\n']))

/-- The text of a file without an entry, unless the file stays as it is. -/
def removeEntry (entry content : List Char) : Option (List Char) :=
  if entry <:+: content then
    some (['\n'].intercalate ((lines content).filter fun line => ¬ entry <:+: line))
  else none

/-- Edit a file, if it exists, and remember whether a file was modified. -/
def editFile (edit : List Char → Option (List Char)) (state : Bool × TextFiles) (path : String) : Bool × TextFiles :=
  match state.2.lookup path with
  | none => state
  | some content =>
    match edit content with
    | none => state
    | some written => (true, state.2.insert path written)

/-- Put an entry on the search path. -/
def addToUnixUserPath (home : Except String String) (files : TextFiles) (newEntry : List Char) :
    Except String Bool × TextFiles :=
  match home with
  | .error e => (.error e, files)
  | .ok home =>
    let (modified, files) := (rcFiles home).foldl (editFile (addEntry newEntry)) (false, files)
    (.ok modified, files)

/-- Take an entry off the search path. -/
def removeFromUnixUserPath (home : Except String String) (files : TextFiles) (entryToRemove : List Char) :
    Except String Bool × TextFiles :=
  match home with
  | .error e => (.error e, files)
  | .ok home =>
    let (modified, files) := (rcFiles home).foldl (editFile (removeEntry entryToRemove)) (false, files)
    (.ok modified, files)

/-! ### All startup files -/

/-- No startup file is edited twice. -/
theorem nodup_rcFiles (home : String) : (rcFiles home).Nodup := by
  have hapart : ∀ name name' : String, name ≠ name' → home ++ name ≠ home ++ name' := fun name name' hne heq =>
    hne (by simpa [← String.toList_inj] using heq)
  simp only [rcFiles, List.nodup_cons, List.mem_cons, List.not_mem_nil, or_false, not_or]
  exact ⟨⟨hapart _ _ (by decide), hapart _ _ (by decide)⟩, hapart _ _ (by decide), not_false, List.nodup_nil⟩

/-- Each file of a list is edited, and the others stay. -/
theorem lookup_editFiles (edit : List Char → Option (List Char)) {paths : List String} (hnodup : paths.Nodup)
    (state : Bool × TextFiles) (path : String) :
    (paths.foldl (editFile edit) state).2.lookup path =
      if path ∈ paths then (state.2.lookup path).map fun content => (edit content).getD content
      else state.2.lookup path := by
  induction paths generalizing state with
  | nil => rfl
  | cons first paths ih =>
    obtain ⟨hfresh, hrest⟩ := List.nodup_cons.mp hnodup
    have hother : path ≠ first → (editFile edit state first).2.lookup path = state.2.lookup path := by
      intro hne
      unfold editFile
      split
      · rfl
      · split
        · rfl
        · exact AList.lookup_insert_ne hne
    rw [List.foldl_cons, ih hrest]
    by_cases hself : path = first
    · subst hself
      rw [if_neg hfresh, if_pos List.mem_cons_self]
      unfold editFile
      cases hlookup : state.2.lookup path with
      | none => exact hlookup
      | some content =>
        simp only [Option.map_some]
        cases edit content with
        | none => exact hlookup
        | some written => exact AList.lookup_insert _
    · rw [hother hself]
      simp only [List.mem_cons, hself, false_or]

/-! ### One startup file -/

/-- The lines with something on them, without the carriage returns at their ends. -/
def texts (content : List Char) : List (List Char) :=
  ((lines content).map (List.rdropWhile (· = '\r'))).filter (· ≠ [])

/-- What putting an entry on the search path and taking it off are to make of a file: the export line
is there, a change is undone, and no line but the export line is deleted. -/
structure Reversible (entry content added restored removed : List Char) : Prop where
  effective : exportLine entry ∈ lines added
  restores : added ≠ content → restored = content
  deletes : ((texts content).filter (· ≠ exportLine entry)).Sublist (texts removed)

/-- The entry does not occur and no line ends with a carriage return, or the export line of the
entry is there and the entry occurs in no other line. -/
def Undisturbed (entry content : List Char) : Prop :=
  if entry <:+: content then
    exportLine entry ∈ lines content ∧ ∀ line ∈ lines content, entry <:+: line →
      line.rdropWhile (· = '\r') = exportLine entry ∨ line.rdropWhile (· = '\r') = []
  else ∀ line ∈ content.splitOn '\n', line.getLast? ≠ some '\r'

/-- The entry is a part of its export line. -/
theorem isInfix_exportLine (entry : List Char) : entry <:+: exportLine entry :=
  ⟨"export PATH=\"".toList, ":$PATH\"".toList, rfl⟩

/-- The export line ends with a quote. -/
theorem getLast?_exportLine (entry : List Char) : (exportLine entry).getLast? = some '"' := by
  unfold exportLine
  rw [List.getLast?_append]
  rfl

/-- The export line is one line. -/
theorem newline_notMem_exportLine {entry : List Char} (hentry : '\n' ∉ entry) : '\n' ∉ exportLine entry := by
  unfold exportLine
  simp only [List.mem_append, not_or]
  exact ⟨⟨by decide, hentry⟩, by decide⟩

/-- The export line has no carriage return at its end. -/
theorem dropReturn_exportLine (entry : List Char) : dropReturn (exportLine entry) = exportLine entry := by
  rw [dropReturn_eq_self_iff, getLast?_exportLine]
  decide

/-- Carriage returns at the end are dropped all the same when one of them is dropped before. -/
theorem rdropWhile_dropReturn (line : List Char) :
    (dropReturn line).rdropWhile (· = '\r') = line.rdropWhile (· = '\r') := by
  obtain heq | ⟨-, hself⟩ := dropReturn_cases line
  · conv_rhs => rw [heq]
    rw [List.rdropWhile_concat_pos _ _ _ (by decide)]
  · rw [hself]

/-- The lines with something on them are the pieces between line feeds with something in them. -/
theorem texts_eq (content : List Char) :
    texts content = ((content.splitOn '\n').map (List.rdropWhile (· = '\r'))).filter (· ≠ []) := by
  obtain hnil | ⟨before, last, hsplit⟩ := List.eq_nil_or_concat' (content.splitOn '\n')
  · exact absurd hnil (List.splitOn_ne_nil '\n' content)
  · have hreturns : (before.map dropReturn).map (List.rdropWhile (· = '\r')) = before.map (List.rdropWhile (· = '\r')) := by
      rw [List.map_map]
      exact List.map_congr_left fun line _ => rdropWhile_dropReturn line
    unfold texts lines
    rw [hsplit]
    simp only [List.dropLast_concat, List.getLast?_concat, List.map_append, List.filter_append, hreturns]
    cases last <;> rfl

/-- Text that is put together from lines has these lines. -/
theorem texts_intercalate {written : List (List Char)} (hlines : ∀ line ∈ written, '\n' ∉ line) :
    texts (['\n'].intercalate written) = (written.map (List.rdropWhile (· = '\r'))).filter (· ≠ []) := by
  rw [texts_eq]
  by_cases hnil : written = []
  · subst hnil
    rfl
  · rw [List.splitOn_intercalate '\n' hlines hnil]

/-- A line has no line feed. -/
theorem newline_notMem_of_mem_lines {content line : List Char} (h : line ∈ lines content) : '\n' ∉ line := by
  have hpiece : ∃ piece ∈ content.splitOn '\n', line <+: piece := by
    unfold lines at h
    obtain h | h := List.mem_append.mp h
    · obtain ⟨piece, hpiece, rfl⟩ := List.mem_map.mp h
      exact ⟨piece, List.dropLast_subset _ hpiece, dropReturn_isPrefix piece⟩
    · split at h
      · rename_i c last hlast
        rw [List.mem_singleton.mp h]
        exact ⟨_, List.mem_of_getLast? hlast, List.prefix_refl _⟩
      · cases h
  obtain ⟨piece, hpiece, hpart⟩ := hpiece
  exact fun hfeed => notMem_of_mem_splitOn hpiece (hpart.subset hfeed)

/-- What is good is left when some elements are taken out of a list if none of these is good. -/
theorem filter_map_sublist_iff {α β : Type*} [DecidableEq β] {f : α → β} {keep : α → Bool} {good kept : β → Bool}
    (hgood : ∀ b, good b = true → kept b = true) {l : List α} :
    ((l.map f).filter good).Sublist (((l.filter keep).map f).filter kept) ↔
      ∀ a ∈ l, keep a = false → good (f a) = false := by
  constructor
  · intro hsub a ha hout
    by_contra hin
    rw [Bool.not_eq_false] at hin
    have hcount := hsub.count_le (f a)
    rw [List.count_filter hin, List.count_filter (hgood _ hin)] at hcount
    obtain ⟨before, after, rfl⟩ := List.append_of_mem ha
    rw [List.map_append, List.count_append, List.map_cons, List.count_cons_self, List.filter_append,
      List.filter_cons_of_neg (by rw [hout]; exact Bool.false_ne_true), List.map_append, List.count_append] at hcount
    have hbefore := ((List.filter_sublist (p := keep) (l := before)).map f).count_le (f a)
    have hafter := ((List.filter_sublist (p := keep) (l := after)).map f).count_le (f a)
    omega
  · intro hout
    have hsame : (l.map f).filter good = (((l.filter keep).map f).filter kept).filter good := by
      rw [List.filter_filter, List.filter_map, List.filter_map, List.filter_filter]
      congr 1
      refine List.filter_congr fun a ha => ?_
      cases hkeep : keep a with
      | true =>
        cases hin : good (f a) with
        | true => simp [hin, hgood _ hin]
        | false => simp [hin]
      | false => simp [hout a ha hkeep]
    rw [hsame]
    exact List.filter_sublist

/-- Taking off an entry deletes no line but the export line if the entry occurs in no other line. -/
theorem deletes_iff (entry content : List Char) :
    ((texts content).filter (· ≠ exportLine entry)).Sublist (texts ((removeEntry entry content).getD content)) ↔
      (entry <:+: content → ∀ line ∈ lines content, entry <:+: line →
        line.rdropWhile (· = '\r') = exportLine entry ∨ line.rdropWhile (· = '\r') = []) := by
  unfold removeEntry
  by_cases hoccurs : entry <:+: content
  · rw [if_pos hoccurs, Option.getD_some, texts_intercalate fun line hline =>
      newline_notMem_of_mem_lines (List.mem_of_mem_filter hline), imp_iff_right hoccurs]
    unfold texts
    rw [List.filter_filter, filter_map_sublist_iff fun text htext => (Bool.and_eq_true_iff.mp htext).2]
    refine forall₂_congr fun line _ => ?_
    simp only [decide_eq_false_iff_not, not_not, Bool.and_eq_false_iff, ne_eq]
  · rw [if_neg hoccurs]
    exact iff_of_true (List.filter_sublist) fun h => absurd h hoccurs

/-- Putting an entry on the search path and taking it off gives the text again if no line ends with a carriage return. -/
theorem restores_iff {entry content : List Char} (hentry : '\n' ∉ entry) (hfresh : ¬ entry <:+: content) :
    removeEntry entry (content ++ '\n' :: (exportLine entry ++ ['\n'])) = some content ↔
      ∀ line ∈ content.splitOn '\n', line.getLast? ≠ some '\r' := by
  have hoccurs : entry <:+: content ++ '\n' :: (exportLine entry ++ ['\n']) :=
    (isInfix_exportLine entry).trans ⟨content ++ ['\n'], ['\n'], by simp⟩
  have hkept : (lines (content ++ '\n' :: (exportLine entry ++ ['\n']))).filter (fun line => ¬ entry <:+: line) =
      (content.splitOn '\n').map dropReturn := by
    rw [lines_append_line (newline_notMem_exportLine hentry), List.filter_append, dropReturn_exportLine,
      List.filter_eq_self.mpr, List.filter_eq_nil_iff.mpr, List.append_nil]
    · intro line hline
      rw [List.mem_singleton.mp hline]
      simpa using isInfix_exportLine entry
    · intro line hline
      obtain ⟨piece, hpiece, rfl⟩ := List.mem_map.mp hline
      refine decide_eq_true fun hin => hfresh ?_
      exact (hin.trans (dropReturn_isPrefix piece).isInfix).trans (isInfix_of_mem_splitOn hpiece)
  rw [removeEntry, if_pos hoccurs, hkept, Option.some.injEq]
  constructor
  · intro heq line hline
    have hsplit : (content.splitOn '\n').map dropReturn = content.splitOn '\n' := by
      conv_rhs => rw [← heq]
      refine (List.splitOn_intercalate '\n' (fun piece hpiece => ?_) (by simp)).symm
      obtain ⟨line, hline, rfl⟩ := List.mem_map.mp hpiece
      exact fun hfeed => notMem_of_mem_splitOn hline ((dropReturn_isPrefix line).subset hfeed)
    exact dropReturn_eq_self_iff.mp (List.map_inj_left.mp (hsplit.trans (List.map_id _).symm) line hline)
  · intro hends
    rw [List.map_congr_left fun line hline => dropReturn_eq_self_iff.mpr (hends line hline), List.map_id',
      List.intercalate_splitOn]

/-- The laws hold of one file exactly when it is undisturbed. -/
theorem reversible_iff {entry content : List Char} (hentry : '\n' ∉ entry) :
    Reversible entry content ((addEntry entry content).getD content)
        ((removeEntry entry ((addEntry entry content).getD content)).getD ((addEntry entry content).getD content))
        ((removeEntry entry content).getD content) ↔
      Undisturbed entry content := by
  have hdeletes := deletes_iff entry content
  unfold Undisturbed
  by_cases hoccurs : entry <:+: content
  · have hadded : (addEntry entry content).getD content = content := by
      rw [addEntry, if_pos hoccurs]
      rfl
    rw [imp_iff_right hoccurs] at hdeletes
    rw [if_pos hoccurs, hadded]
    constructor
    · exact fun h => ⟨h.effective, hdeletes.mp h.deletes⟩
    · exact fun h => ⟨h.1, fun hchanged => absurd rfl hchanged, hdeletes.mpr h.2⟩
  · have hadded : (addEntry entry content).getD content = content ++ '\n' :: (exportLine entry ++ ['\n']) := by
      rw [addEntry, if_neg hoccurs]
      rfl
    have hchanged : content ++ '\n' :: (exportLine entry ++ ['\n']) ≠ content := by
      intro heq
      simpa using congrArg List.length heq
    have hrestores := restores_iff hentry hoccurs
    rw [if_neg hoccurs, hadded, ← hrestores]
    constructor
    · intro h
      have hback := h.restores hchanged
      unfold removeEntry at hback ⊢
      split
      · rename_i hin
        rw [if_pos hin, Option.getD_some] at hback
        rw [hback]
      · rename_i hout
        rw [if_neg hout] at hback
        exact absurd hback hchanged
    · intro hback
      refine ⟨?_, fun _ => by rw [hback]; rfl, hdeletes.mpr fun h => absurd h hoccurs⟩
      rw [lines_append_line (newline_notMem_exportLine hentry), dropReturn_exportLine]
      exact List.mem_append_right _ (List.mem_singleton_self _)

/-- For every entry without a line feed and every startup file: the entry is on the search path
after it was put there, taking it off restores a changed file, and taking it off deletes no line
but its export line, if and only if the file is undisturbed. -/
theorem unixUserPath_reversible_iff (home : String) (files : TextFiles) (entry : List Char) (hentry : '\n' ∉ entry)
    (path : String) (hpath : path ∈ rcFiles home) (content : List Char) (hcontent : files.lookup path = some content) :
    (∃ added restored removed,
      (addToUnixUserPath (.ok home) files entry).2.lookup path = some added ∧
        (removeFromUnixUserPath (.ok home) (addToUnixUserPath (.ok home) files entry).2 entry).2.lookup path =
          some restored ∧
        (removeFromUnixUserPath (.ok home) files entry).2.lookup path = some removed ∧
        Reversible entry content added restored removed) ↔
      Undisturbed entry content := by
  have hadd : (addToUnixUserPath (.ok home) files entry).2.lookup path =
      some ((addEntry entry content).getD content) := by
    unfold addToUnixUserPath
    simp only
    rw [lookup_editFiles _ (nodup_rcFiles home), if_pos hpath, hcontent, Option.map_some]
  have hremove (files : TextFiles) (content : List Char) (hcontent : files.lookup path = some content) :
      (removeFromUnixUserPath (.ok home) files entry).2.lookup path =
        some ((removeEntry entry content).getD content) := by
    unfold removeFromUnixUserPath
    simp only
    rw [lookup_editFiles _ (nodup_rcFiles home), if_pos hpath, hcontent, Option.map_some]
  rw [← reversible_iff hentry, hadd, hremove _ _ hadd, hremove _ _ hcontent]
  constructor
  · rintro ⟨added, restored, removed, hadded, hrestored, hremoved, h⟩
    obtain rfl := Option.some.inj hadded
    obtain rfl := Option.some.inj hrestored
    obtain rfl := Option.some.inj hremoved
    exact h
  · exact fun h => ⟨_, _, _, rfl, rfl, rfl, h⟩

/-- A startup file with another directory on the search path. -/
def bashrc : TextFiles := AList.singleton "/home/a/.bashrc" "PATH=/opt/b2\n".toList

/-- With an entry that does not occur in the file. -/
theorem unixUserPath_reversible_iff_bashrc :
    (∃ added restored removed,
      (addToUnixUserPath (.ok "/home/a") bashrc "/opt/c".toList).2.lookup "/home/a/.bashrc" = some added ∧
        (removeFromUnixUserPath (.ok "/home/a") (addToUnixUserPath (.ok "/home/a") bashrc "/opt/c".toList).2
          "/opt/c".toList).2.lookup "/home/a/.bashrc" = some restored ∧
        (removeFromUnixUserPath (.ok "/home/a") bashrc "/opt/c".toList).2.lookup "/home/a/.bashrc" = some removed ∧
        Reversible "/opt/c".toList "PATH=/opt/b2\n".toList added restored removed) ↔
      Undisturbed "/opt/c".toList "PATH=/opt/b2\n".toList :=
  unixUserPath_reversible_iff "/home/a" bashrc "/opt/c".toList (by decide) "/home/a/.bashrc" (by decide) _ rfl

/-- An entry that is the start of another directory on the search path is not put there. -/
theorem unixUserPath_not_reversible :
    ¬ ∀ (home : String) (files : TextFiles) (entry : List Char), '\n' ∉ entry → ∀ path ∈ rcFiles home,
      ∀ content, files.lookup path = some content → ∃ added restored removed,
        (addToUnixUserPath (.ok home) files entry).2.lookup path = some added ∧
          (removeFromUnixUserPath (.ok home) (addToUnixUserPath (.ok home) files entry).2 entry).2.lookup path =
            some restored ∧
          (removeFromUnixUserPath (.ok home) files entry).2.lookup path = some removed ∧
          Reversible entry content added restored removed := by
  intro h
  obtain ⟨added, restored, removed, hadded, -, -, hlaws⟩ :=
    h "/home/a" bashrc "/opt/b".toList (by decide) "/home/a/.bashrc" (by decide) _ rfl
  have hsame : (addToUnixUserPath (.ok "/home/a") bashrc "/opt/b".toList).2.lookup "/home/a/.bashrc" =
      some "PATH=/opt/b2\n".toList := by decide
  obtain rfl := Option.some.inj (hsame.symm.trans hadded)
  exact absurd hlaws.effective (by decide)

end Forge.Installer
